import SPHomework.Booking.Guarantees

set_option autoImplicit false

/-!
# The read locks of read_server

After a failed read at stage 0 the handler goes on with the id that an earlier
connection left in the buffer of the slot. A lock granted then belongs to no
connection and is never dropped.
-/

namespace SPHomework.Booking

open Lib

variable {P : Type} [DecidableEq P] [Fintype P] {file : Nat → Record} {host : Host}
  {kind : P → ServerKind} {heap : P → Nat → List UInt8} {labels : List (Label P)}
  {system next : System P} {pid : P} {memory : Memory} {working : List Nat}

/-- A call that takes the lock of a record for a connection that is closed. -/
def Kernel.Leaks (kernel : Kernel P) (caller : P) (handled : Nat) (choice : Choice) (call : Call)
    (record : Nat) : Prop :=
  ∃ mode, call = .fcntl (some mode) record ∧ choice.grant = true ∧
    ¬ Conflict kernel caller mode record ∧ kernel.conns caller handled = none

def Leaks (pid : P) (record : Nat) (system : System P) : Label P → Prop
  | .call caller choice => caller = pid ∧ ∃ fd working memory call next,
    system.proc caller = .handling fd working (.call memory call next) ∧
      system.kernel.Leaks caller fd choice call record
  | _ => False

theorem Kernel.exec_leaked {kernel after : Kernel P} {caller : P} {handled : Nat} {choice : Choice}
    {call : Call} {answer : Answer call} (pid : P) (record : Nat)
    (executed : kernel.exec caller handled choice call = some (answer, after)) :
    (¬ (caller = pid ∧ kernel.Leaks caller handled choice call record) →
        after.leaked pid record = kernel.leaked pid record) ∧
      (caller = pid ∧ kernel.Leaks caller handled choice call record →
        kernel.leaked pid record < after.leaked pid record) := by
  have quiet : (∀ mode, call ≠ .fcntl (some mode) record) → after.leaked = kernel.leaked →
      (¬ (caller = pid ∧ kernel.Leaks caller handled choice call record) →
          after.leaked pid record = kernel.leaked pid record) ∧
        (caller = pid ∧ kernel.Leaks caller handled choice call record →
          kernel.leaked pid record < after.leaked pid record) := by
    intro other same
    refine ⟨fun _ => by rw [same], ?_⟩
    rintro ⟨-, mode, equal, -⟩
    exact absurd equal (other mode)
  cases call with
  | fcntl type number =>
    cases type with
    | none =>
      obtain ⟨-, rfl⟩ := Prod.mk.inj (Option.some.inj executed)
      exact quiet (by simp) rfl
    | some mode =>
      simp only [Kernel.exec] at executed
      split_ifs at executed with free
      · obtain ⟨-, rfl⟩ := Prod.mk.inj (Option.some.inj executed)
        rw [Kernel.grant_leaked]
        constructor
        · intro spared
          rw [if_neg, Nat.add_zero]
          rintro ⟨rfl, closed, rfl⟩
          exact spared ⟨rfl, mode, rfl, free.1, free.2, closed⟩
        · rintro ⟨rfl, other, equal, _, _, closed⟩
          obtain ⟨-, rfl⟩ := Call.fcntl.inj equal
          rw [if_pos ⟨rfl, closed, rfl⟩]
          exact Nat.lt_succ_self _
      · obtain ⟨-, rfl⟩ := Prod.mk.inj (Option.some.inj executed)
        refine ⟨fun _ => rfl, ?_⟩
        rintro ⟨-, other, equal, granted, clear, -⟩
        obtain ⟨same, rfl⟩ := Call.fcntl.inj equal
        obtain rfl := Option.some.inj same
        exact absurd ⟨granted, clear⟩ free
  | lseek number =>
    obtain ⟨-, rfl⟩ := Prod.mk.inj (Option.some.inj executed)
    exact quiet (by simp) rfl
  | read =>
    obtain ⟨-, rfl⟩ := Prod.mk.inj (Option.some.inj executed)
    exact quiet (by simp) rfl
  | write value =>
    obtain ⟨-, rfl⟩ := Prod.mk.inj (Option.some.inj executed)
    exact quiet (by simp) rfl
  | recv fd =>
    simp only [Kernel.exec] at executed
    split at executed <;> try split_ifs at executed
    all_goals
      obtain ⟨-, rfl⟩ := Prod.mk.inj (Option.some.inj executed)
      exact quiet (by simp) rfl
  | send fd message =>
    simp only [Kernel.exec] at executed
    split at executed <;>
    · obtain ⟨-, rfl⟩ := Prod.mk.inj (Option.some.inj executed)
      exact quiet (by simp) rfl
  | close fd =>
    simp only [Kernel.exec] at executed
    split at executed <;>
    · obtain ⟨-, rfl⟩ := Prod.mk.inj (Option.some.inj executed)
      exact quiet (by simp) rfl

theorem step_leaked {label : Label P} (record : Nat)
    (taken : system.step host kind label = some next) :
    (¬ Leaks pid record system label →
        next.kernel.leaked pid record = system.kernel.leaked pid record) ∧
      (Leaks pid record system label →
        system.kernel.leaked pid record < next.kernel.leaked pid record) := by
  cases label with
  | select caller ready accept =>
    refine ⟨fun _ => ?_, False.elim⟩
    simp only [System.step] at taken
    split at taken
    · split_ifs at taken
      cases accept <;> simp only at taken
      all_goals try split_ifs at taken
      all_goals exact Option.some.inj taken ▸ rfl
    · exact absurd taken (by simp)
  | visit caller =>
    refine ⟨fun _ => ?_, False.elim⟩
    simp only [System.step] at taken
    split at taken
    · split_ifs at taken
      · exact Option.some.inj taken ▸ rfl
      · split at taken <;> exact Option.some.inj taken ▸ rfl
    · exact absurd taken (by simp)
  | call caller choice =>
    simp only [System.step] at taken
    split at taken
    · rename_i fd working memory call continuation here
      obtain ⟨⟨answer, after⟩, executed, rfl⟩ := Option.map_eq_some_iff.mp taken
      obtain ⟨kept, grows⟩ := Kernel.exec_leaked pid record executed
      constructor
      · intro spared
        refine kept ?_
        rintro ⟨same, leaks⟩
        exact spared ⟨same, fd, working, memory, call, continuation, here, leaks⟩
      · rintro ⟨same, fd', working', memory', call', next', here', leaks⟩
        obtain ⟨rfl, rfl, equal⟩ := Proc.handling.inj (here.symm.trans here')
        obtain ⟨-, rfl, -⟩ := Prog.call.inj equal
        exact grows ⟨same, leaks⟩
    · exact absurd taken (by simp)
  | finish caller =>
    refine ⟨fun _ => ?_, False.elim⟩
    simp only [System.step] at taken
    split at taken
    all_goals first | exact Option.some.inj taken ▸ rfl | exact absurd taken (by simp)

-- The lock calls of READ_SERVER: at stage 0, on the record that the buffer of the slot names.
def entries (fd : Nat) : Rules Unit Memory Call Answer where
  wp _ memory call next :=
    (∀ mode record, call = .fcntl (some mode) record → mode = .read ∧ (memory.requestP fd).stage = 0 ∧
      recordOf (cString (memory.requestP fd).buf) = some record) ∧ ∀ answer, next answer ()
  mono _ _ _ _ _ weaker allowed := ⟨allowed.1, fun answer => weaker answer () (allowed.2 answer)⟩

abbrev Enters (fd : Nat) (code : Prog Memory Call Answer Flow) : Prop :=
  (entries fd).Meets (fun _ _ _ => True) () code

section

variable {fd : Nat} {α : Type} {post : Unit → Memory → α → Prop}

-- Any other call only has to be gone on from.
theorem entries_call {memory : Memory} {call : Call} {next : Answer call → Prog Memory Call Answer α}
    (other : ∀ mode record, call ≠ .fcntl (some mode) record)
    (goes : ∀ answer, (entries fd).Meets post () (next answer)) : (entries fd).Meets post () (.call memory call next) :=
  ⟨fun mode record same => absurd same (other mode record), goes⟩

theorem handleRead_enters (memory : Memory) :
    (entries fd).Meets (fun _ after _ => (after.requestP fd).stage = (memory.requestP fd).stage) ()
      (handleRead fd memory) := by
  simp only [handleRead, Code.bind_run, slot_run, syscall_run, Prog.bind_done, Prog.bind_call]
  refine entries_call (by simp) fun input => ?_
  cases input with
  | failed => exact rfl
  | eof => exact rfl
  | chunk bytes =>
    rcases framed : frame bytes with length | _ | _
    · simp [framed, Rules.Meets, Request.fill]
    · simp only [framed]
      exact rfl
    · simp only [framed]
      trivial

theorem closeConnection_enters (memory : Memory) :
    (entries fd).Meets (fun _ after _ => (after.requestP fd).stage = 0) () (closeConnection fd memory) := by
  refine entries_call (by simp) fun answer => ?_
  simp [Rules.Meets, freeRequest, initRequest]

theorem reject_enters (memory : Memory) (message : Message) : Enters fd (reject fd message memory) := by
  refine entries_call (by simp) fun _ => entries_call (by simp) fun _ => ?_
  trivial

theorem openSession_enters (memory : Memory) (id : Nat) (message : Counts → Message) :
    Enters fd (openSession fd id message memory) := by
  refine entries_call (by simp) fun _ => entries_call (by simp) fun _ => entries_call (by simp) fun _ => ?_
  trivial

theorem readEntry_enters (memory : Memory) (stage : (memory.requestP fd).stage = 0) : Enters fd (readEntry fd memory) := by
  simp only [readEntry, Code.bind_run, slot_run, Prog.bind_done]
  split_ifs with valid
  · simp only [Code.bind_run, Code.get_run, Prog.bind_done, andGranted]
    cases memory.writeLock (validId (cString (memory.requestP fd).buf) - 902001).toNat with
    | true => exact reject_enters memory .locked
    | false =>
      refine ⟨fun mode record same => ?_, fun answer => ?_⟩
      · obtain ⟨kind, rfl⟩ := Call.fcntl.inj same
        exact ⟨(Option.some.inj kind).symm, stage, if_pos valid⟩
      · show Enters fd (Prog.bind (.done memory (answer != -1)) _)
        cases answer != -1 with
        | true => exact openSession_enters _ _ .bookings
        | false => exact reject_enters memory .locked
  · simp only [Code.bind_run, slot_run, Prog.bind_done, stage, if_true]
    exact reject_enters memory .failed

theorem readStage0_enters (memory : Memory) (stage : (memory.requestP fd).stage = 0) :
    Enters fd (readStage0 fd memory) := by
  refine (handleRead_enters memory).andThen fun _ after ret same => ?_
  split_ifs
  · exact (closeConnection_enters after).bind fun _ closed _ => readEntry_enters closed
  · exact readEntry_enters after (same.trans stage)

theorem readStage1_enters (memory : Memory) : Enters fd (readStage1 fd memory) := by
  refine (handleRead_enters memory).andThen fun _ after ret _ => ?_
  simp only [Code.bind_run, slot_run, Prog.bind_done]
  split_ifs
  · refine entries_call (by simp) fun _ => ?_
    simp only [Code.bind_run, Code.modify_run, slot_run, Code.get_run, Prog.bind_done]
    split_ifs
    · exact entries_call (by simp) fun _ => trivial
    · trivial
  · trivial

theorem handler_enters {memory : Memory} {code : Handler Flow}
    (chosen : handler .readServer fd (memory.requestP fd).stage = some code) : Enters fd (code memory) := by
  rcases stage : (memory.requestP fd).stage with _ | _ | other <;> rw [stage] at chosen
  · obtain rfl := Option.some.inj chosen
    exact readStage0_enters memory stage
  · obtain rfl := Option.some.inj chosen
    exact readStage1_enters memory
  · cases chosen

end

-- Wherever a handler of the process is, its lock calls are entries.
def EntersOnly (pid : P) (system : System P) : Prop :=
  ∀ fd working code, system.proc pid = .handling fd working code → Enters fd code

theorem EntersOnly.step {label : Label P} (inv : SystemInv file host kind system) (reader : kind pid = .readServer)
    (entering : EntersOnly pid system) (taken : system.step host kind label = some next) : EntersOnly pid next := by
  intro fd working code here
  by_cases other : pid = label.pid
  · cases label with
    | select caller ready accept =>
      obtain rfl : pid = caller := other
      simp only [System.step] at taken
      split at taken
      · split_ifs at taken
        cases accept <;> simp only at taken
        all_goals try split_ifs at taken
        all_goals
          obtain rfl := Option.some.inj taken
          simp [System.setProc] at here
      · exact absurd taken (by simp)
    | visit caller =>
      obtain rfl : pid = caller := other
      simp only [System.step] at taken
      split at taken
      · split_ifs at taken
        · obtain rfl := Option.some.inj taken
          simp [System.setProc] at here
        · rw [reader] at taken
          split at taken
          · rename_i chosen
            obtain rfl := Option.some.inj taken
            obtain ⟨rfl, -, rfl⟩ := Proc.handling.inj ((Function.update_self ..).symm.trans here)
            exact handler_enters chosen
          · obtain rfl := Option.some.inj taken
            simp [System.setProc] at here
      · exact absurd taken (by simp)
    | call caller choice =>
      obtain rfl : pid = caller := other
      simp only [System.step] at taken
      split at taken
      · rename_i before
        obtain ⟨⟨answer, after⟩, -, rfl⟩ := Option.map_eq_some_iff.mp taken
        obtain ⟨rfl, -, rfl⟩ := Proc.handling.inj ((Function.update_self ..).symm.trans here)
        exact (entering _ _ _ before).2 answer
      · exact absurd taken (by simp)
    | finish caller =>
      obtain rfl : pid = caller := other
      simp only [System.step] at taken
      split at taken
      all_goals
        first
        | (obtain rfl := Option.some.inj taken; simp [System.setProc] at here)
        | exact absurd taken (by simp)
  · rw [((step_moves inv taken).other other).1] at here
    exact entering fd working code here

theorem entersOnly_run (reader : kind pid = .readServer)
    (ran : run (System.step host kind) (System.init host file heap) labels = some system) : EntersOnly pid system :=
  (run_invariant _ (fun state => SystemInv file host kind state ∧ EntersOnly pid state)
    (fun _ _ _ both taken => ⟨both.1.step taken, both.2.step both.1 reader taken⟩) _ system labels
    ⟨SystemInv.reachable (show run _ _ [] = some _ from rfl), fun _ _ _ here => by cases here⟩ ran).2

/-- A client that is gone gets a lock: the buffer of its slot, at stage 0 again, names the record from
before, and no other server writes to it. -/
def TakesStale (pid : P) (record : Nat) (system : System P) : Label P → Prop
  | .call caller choice => caller = pid ∧ choice.grant = true ∧ ∃ fd working memory mode next,
    system.proc pid = .handling fd working (.call memory (.fcntl (some mode) record) next) ∧
      system.kernel.conns pid fd = none ∧ (memory.requestP fd).stage = 0 ∧
      recordOf (cString (memory.requestP fd).buf) = some record ∧
      ∀ other, other ≠ pid → system.kernel.locks other record ≠ some .write
  | _ => False

/-- What a leak is to the clients of read_server. -/
theorem leaks_iff_stale (ran : run (System.step host kind) (System.init host file heap) labels = some system)
    (reader : kind pid = .readServer) (record : Nat) (label : Label P) :
    Leaks pid record system label ↔ TakesStale pid record system label := by
  cases label with
  | call caller choice =>
    constructor
    · rintro ⟨rfl, fd, working, memory, call, next, here, mode, rfl, granted, free, gone⟩
      obtain ⟨rfl, stage, named⟩ := (entersOnly_run reader ran fd working _ here).1 mode record rfl
      exact ⟨rfl, granted, fd, working, memory, .read, next, here, gone, stage, named,
        fun other different locked => free ⟨other, different, .inl locked⟩⟩
    · rintro ⟨rfl, granted, fd, working, memory, mode, next, here, gone, stage, named, free⟩
      obtain ⟨rfl, -, -⟩ := (entersOnly_run reader ran fd working _ here).1 mode record rfl
      refine ⟨rfl, fd, working, memory, _, next, here, .read, rfl, granted, ?_, gone⟩
      rintro ⟨other, different, locked | ⟨writes, -⟩⟩
      · exact free other different locked
      · cases writes
  | _ => rfl

/-- The read locks agree with the open connections in the runs that leak none. -/
theorem read_locks_counted_iff
    (ran : run (System.step host kind) (System.init host file heap) labels = some system)
    (reader : kind pid = .readServer) (between : system.proc pid = .loop memory working) (record : Nat) :
    (memory.readLock record =
          activeCount host.maxfd (system.kernel.conns pid) memory.requestP record ∧
        (system.kernel.locks pid record = some .read ↔
          0 < activeCount host.maxfd (system.kernel.conns pid) memory.requestP record)) ↔
      Always (System.step host kind) (fun state label => ¬ Leaks pid record state label)
        (System.init host file heap) labels := by
  have idle := (SystemInv.reachable ran).procs pid
  rw [between, reader] at idle
  have idle : Idle file host .readServer pid working system.kernel memory := idle
  have tally := idle.tally record
  have counter := (run_counter (System.step host kind) (fun state label => ¬ Leaks pid record state label)
    (fun state => state.kernel.leaked pid record)
    (fun state label next taken spared => (step_leaked record taken).1 spared)
    (fun state label next taken leaks => (step_leaked record taken).2 (not_not.mp leaks))
    _ _ labels ran).2
  rw [← counter, tally.readLock, tally.lock]
  show _ ↔ system.kernel.leaked pid record = 0
  constructor
  · rintro ⟨same, -⟩
    simpa using same
  · intro none_leaked
    simp [none_leaked, ServerKind.mode, Nat.pos_iff_ne_zero]

theorem read_locks_counted_iff_one_reader :
    ∃ system memory, run (System.step smallHost fun _ => .readServer) smallStart
        (connect ++ turn 5 (.chunk idLine)) = some system ∧
      system.proc () = .loop memory [] ∧
      activeCount smallHost.maxfd (system.kernel.conns ()) memory.requestP 0 = 1 ∧
      Always (System.step smallHost fun _ => .readServer)
        (fun state label => ¬ Leaks () 0 state label) smallStart (connect ++ turn 5 (.chunk idLine)) := by
  obtain ⟨system, memory, ran, between, seen⟩ := ends_idle (fun _ => .readServer) smallStart
    (connect ++ turn 5 (.chunk idLine)) []
    (fun kernel memory => activeCount smallHost.maxfd (kernel.conns ()) memory.requestP 0 = 1 ∧
      memory.readLock 0 = 1 ∧ kernel.locks () 0 = some .read) (by decide)
  obtain ⟨active, counted, locked⟩ := of_decide_eq_true seen
  exact ⟨system, memory, ran, between, active, (read_locks_counted_iff ran rfl between 0).mp
    ⟨by simp [active, counted], by simp [active, locked]⟩⟩

-- A connection leaves its id in the slot; the next one on the descriptor leaves at once.
theorem read_lock_leaks :
    ∃ system memory, run (System.step smallHost fun _ => .readServer) smallStart
        (connect ++ turn 5 (.chunk idLine) ++ turn 3 .eof ++ connect ++ turn 6 .eof) = some system ∧
      system.proc () = .loop memory [] ∧ (∀ fd < smallHost.maxfd, system.kernel.conns () fd = none) ∧
      activeCount smallHost.maxfd (system.kernel.conns ()) memory.requestP 0 = 0 ∧
      memory.readLock 0 = 1 ∧ system.kernel.locks () 0 = some .read := by
  obtain ⟨system, memory, ran, between, seen⟩ := ends_idle (fun _ => .readServer) smallStart
    (connect ++ turn 5 (.chunk idLine) ++ turn 3 .eof ++ connect ++ turn 6 .eof) []
    (fun kernel memory => (∀ fd < smallHost.maxfd, kernel.conns () fd = none) ∧
      activeCount smallHost.maxfd (kernel.conns ()) memory.requestP 0 = 0 ∧
      memory.readLock 0 = 1 ∧ kernel.locks () 0 = some .read) (by decide)
  exact ⟨system, memory, ran, between, of_decide_eq_true seen⟩

end SPHomework.Booking
