import SPHomework.Booking.Safety

set_option autoImplicit false

/-!
# What the clients of the servers are promised

No booking is lost, a writer is alone on its record, and the arrays of each
server agree with its open connections and its locks.
-/

namespace SPHomework.Booking

open Lib

variable {P : Type} [DecidableEq P] [Fintype P] {file : Nat → Record} {host : Host}
  {kind : P → ServerKind} {heap : P → Nat → List UInt8} {labels : List (Label P)}
  {system next final : System P} {pid : P} {memory : Memory} {working : List Nat}

def AtStage1 (system : System P) (pid : P) (fd record : Nat) : Prop :=
  ∃ memory, (system.proc pid).memory = some memory ∧
    Active (system.kernel.conns pid) memory.requestP record fd

-- One process, with `bookingRecord` on descriptor 3 and its socket on 4.
def smallHost : Host := ⟨8, 3, 4⟩

def smallStart : System Unit :=
  System.init smallHost (fun record => ⟨BitVec.ofNat 32 (902001 + record), 0⟩) fun _ _ => []

def idLine : List UInt8 := ofChars ['9', '0', '2', '0', '0', '1', '\r', '\n']

def bookLine : List UInt8 := ofChars ['1', ' ', '2', ' ', '3', '\r', '\n']

-- A client connects and gets descriptor 5.
def connect : List (Label Unit) := [.select () [4] (.conn 5), .visit ()]

def calls (count : Nat) (input : Input) : List (Label Unit) :=
  List.replicate count (.call () ⟨true, input⟩)

-- One pass of the loop, in which the handler of 5 makes a number of calls.
def turn (count : Nat) (input : Input) : List (Label Unit) :=
  .select () [5] .notReady :: .visit () :: calls count input ++ [.finish ()]

theorem ends_idle (kind : Unit → ServerKind) (start : System Unit) (labels : List (Label Unit))
    (working : List Nat) (test : Kernel Unit → Memory → Bool)
    (passed : ((run (System.step smallHost kind) start labels).any fun system =>
      match system.proc () with
      | .loop memory rest => rest == working && test system.kernel memory
      | _ => false) = true) :
    ∃ system memory, run (System.step smallHost kind) start labels = some system ∧
      system.proc () = .loop memory working ∧ test system.kernel memory = true := by
  obtain ⟨system, ran, seen⟩ := (Option.any_eq_true _ _).mp passed
  split at seen
  · rename_i memory rest here
    simp only [Bool.and_eq_true, beq_iff_eq] at seen
    exact ⟨system, memory, ran, seen.1 ▸ here, seen.2⟩
  · exact absurd seen (by simp)

theorem no_lost_update
    (ran : run (System.step host kind) (System.init host file heap) labels = some system) :
    (∀ record, system.kernel.file record = afterBookings file system.kernel.ledger record) ∧
      (system.kernel.ledger.map Conn.sid).Nodup ∧
      (∀ conn ∈ system.kernel.ledger, conn.entered.isSome ∧ conn.delta.isSome) ∧
      (∀ conn ∈ system.kernel.past, system.kernel.Booked conn.sid ↔ conn.Told) ∧
      (∀ pid fd conn, system.kernel.conns pid fd = some conn → conn.Told →
        system.kernel.Booked conn.sid) ∧
      ∀ pid fd record conn, AtStage1 system pid fd record → system.kernel.conns pid fd = some conn →
        conn.entered = some record ∧ (Shown (kind pid) system.kernel.file conn record ∨
          kind pid = .writeServer ∧ system.kernel.Booked conn.sid) := by
  have inv := SystemInv.reachable ran
  refine ⟨inv.kernel.content, inv.kernel.once, fun conn member => (inv.kernel.stored conn member).2,
    fun conn member => (inv.kernel.past conn member).2, inv.kernel.told, ?_⟩
  rintro pid fd _ conn ⟨memory, running, _, stage, rfl⟩ here
  exact (inv.covered running).shown fd conn here stage

-- Two write servers on one file, each with a client on a record of its own, call by call in turns.
def secondIdLine : List UInt8 := ofChars ['9', '0', '2', '0', '0', '2', '\n']

def turnOf (pid : Bool) (count : Nat) (input : Input) : List (Label Bool) :=
  .select pid [5] .notReady :: .visit pid :: List.replicate count (.call pid ⟨true, input⟩) ++ [.finish pid]

def inTurns (first second : List (Label Bool)) : List (Label Bool) :=
  (first.zip second).flatMap fun pair => [pair.1, pair.2]

def twoServers : List (Label Bool) :=
  inTurns [.select false [4] (.conn 5), .visit false] [.select true [4] (.conn 5), .visit true] ++
    inTurns (turnOf false 5 (.chunk idLine)) (turnOf true 5 (.chunk secondIdLine)) ++
      inTurns (turnOf false 8 (.chunk bookLine)) (turnOf true 8 (.chunk bookLine))

def twoStart : System Bool :=
  System.init smallHost (fun record => ⟨BitVec.ofNat 32 (902001 + record), 0⟩) fun _ _ => []

theorem no_lost_update_two_servers :
    ∃ system, run (System.step smallHost fun _ => .writeServer) twoStart twoServers = some system ∧
      (∀ record, system.kernel.file record =
        afterBookings (fun record => ⟨BitVec.ofNat 32 (902001 + record), 0⟩) system.kernel.ledger record) ∧
      (system.kernel.ledger.map Conn.sid).Nodup ∧ system.kernel.ledger.length = 2 ∧
      system.kernel.file 0 = ⟨902001, ⟨1, 2, 3⟩⟩ ∧ system.kernel.file 1 = ⟨902002, ⟨1, 2, 3⟩⟩ := by
  have booked : ((run (System.step smallHost fun _ => .writeServer) twoStart twoServers).any fun system =>
      system.kernel.ledger.length = 2 ∧ system.kernel.file 0 = ⟨902001, ⟨1, 2, 3⟩⟩ ∧
        system.kernel.file 1 = ⟨902002, ⟨1, 2, 3⟩⟩) = true := by
    decide +kernel
  obtain ⟨system, ran, seen⟩ := (Option.any_eq_true _ _).mp booked
  obtain ⟨content, once, -⟩ := no_lost_update ran
  exact ⟨system, ran, content, once, of_decide_eq_true seen⟩

theorem writer_excludes
    (ran : run (System.step host kind) (System.init host file heap) labels = some system)
    {other : P} {fd fd' record : Nat} (writer : kind pid = .writeServer)
    (writing : AtStage1 system pid fd record) (present : AtStage1 system other fd' record) :
    other = pid ∧ fd' = fd := by
  have inv := SystemInv.reachable ran
  obtain ⟨memory, running, active⟩ := writing
  obtain ⟨memory', running', active'⟩ := present
  have held := (inv.covered running).locked fd record active
  have held' := (inv.covered running').locked fd' record active'
  rw [writer] at held
  have same : other = pid := by
    by_contra different
    have free := inv.kernel.exclusive pid other record (Ne.symm different) held
    exact absurd (free.symm.trans held') (by simp)
  subst same
  obtain rfl := Option.some.inj (running.symm.trans running')
  exact ⟨rfl, (inv.covered running).sole writer fd' fd record active' active⟩

theorem writer_excludes_itself :
    ∃ system, run (System.step smallHost fun _ => .writeServer) smallStart
        (connect ++ turn 5 (.chunk idLine)) = some system ∧
      AtStage1 system () 5 0 ∧
      ∀ fd, AtStage1 system () fd 0 → () = () ∧ fd = 5 := by
  obtain ⟨system, memory, ran, between, seen⟩ := ends_idle (fun _ => .writeServer) smallStart
    (connect ++ turn 5 (.chunk idLine)) []
    (fun kernel memory => Active (kernel.conns ()) memory.requestP 0 5) (by decide)
  have writing : AtStage1 system () 5 0 := ⟨memory, by simp [between, Proc.memory], of_decide_eq_true seen⟩
  exact ⟨system, ran, writing, fun fd present => writer_excludes ran rfl writing present⟩

def Handling (visit : Visit P) (system : System P) : Prop :=
  ∃ code, system.proc visit.pid = .handling visit.fd visit.working code ∧
    visit.party.Safe (fun kernel' memory' _ => Served visit kernel' memory') system.kernel code

theorem Handling.step {visit : Visit P} {label : Label P} (handling : Handling visit system)
    (inv : SystemInv visit.file host kind system) (taken : system.step host kind label = some next)
    (going : label ≠ .finish visit.pid) : Handling visit next := by
  obtain ⟨code, here, safe⟩ := handling
  by_cases other : visit.pid = label.pid
  · cases label with
    | select pid ready accept =>
      obtain rfl : visit.pid = pid := other
      simp [System.step, here] at taken
    | visit pid =>
      obtain rfl : visit.pid = pid := other
      simp [System.step, here] at taken
    | call pid choice =>
      obtain rfl : visit.pid = pid := other
      simp only [System.step, here] at taken
      split at taken
      · rename_i same
        obtain ⟨rfl, rfl, rfl⟩ := Proc.handling.inj same
        obtain ⟨⟨answer, after⟩, executed, rfl⟩ := Option.map_eq_some_iff.mp taken
        obtain ⟨-, rest⟩ := (safe system.kernel (Relies.refl ..)).2 answer after ⟨choice, executed⟩
        exact ⟨_, by simp [System.setProc], rest⟩
      · exact absurd taken (by simp)
    | finish pid => exact absurd (congrArg Label.finish other.symm) going
  · obtain ⟨unmoved, relies⟩ := (step_moves inv taken).other other
    exact ⟨code, unmoved.trans here, safe.stable relies⟩

theorem Handling.run {visit : Visit P} (labels : List (Label P)) (handling : Handling visit system)
    (inv : SystemInv visit.file host kind system)
    (ran : Lib.run (System.step host kind) system labels = some final)
    (going : ∀ label ∈ labels, label ≠ .finish visit.pid) :
    Handling visit final ∧ SystemInv visit.file host kind final := by
  induction labels generalizing system with
  | nil => exact Option.some.inj ran ▸ ⟨handling, inv⟩
  | cons label rest ih =>
    obtain ⟨next, taken, continued⟩ := (run_cons _ system final label rest).mp ran
    exact ih (handling.step inv taken (going label (List.mem_cons_self ..))) (inv.step taken) continued
      fun later member => going later (List.mem_cons_of_mem _ member)

/-- A run in which a process visits a descriptor, and its handler runs to the end. -/
structure Handles (host : Host) (kind : P → ServerKind) (pid : P) (fd : Nat) (system final : System P)
    (memory memory' : Memory) : Prop where
  working : ∃ rest, system.proc pid = .loop memory (fd :: rest)
  connected : (system.kernel.conns pid fd).isSome
  handled : ∃ labels, (∀ label ∈ labels, label ≠ .finish pid) ∧
    run (System.step host kind) system (.visit pid :: labels ++ [.finish pid]) = some final
  idle : ∃ rest, final.proc pid = .loop memory' rest

theorem Handles.served {fd : Nat} {memory' : Memory} (inv : SystemInv file host kind system)
    (handles : Handles host kind pid fd system final memory memory') :
    ∃ rest, Served ⟨file, host, kind pid, pid, fd, rest, system.kernel.conns pid, memory.requestP⟩
      final.kernel memory' := by
  obtain ⟨⟨rest, here⟩, connected, ⟨labels, going, ran⟩, ⟨rest', idle⟩⟩ := handles
  have ok := inv.procs pid
  rw [here] at ok
  have usable := Idle.usable ok fd connected
  obtain ⟨code, chosen, safe⟩ := handler_safe ok usable.2.2.2
  rw [List.cons_append, run_cons] at ran
  obtain ⟨visited, taken, continued⟩ := ran
  have inv' := inv.step taken
  obtain ⟨middle, calls, ended⟩ := (run_append _ visited final labels _).mp continued
  have entered : Handling ⟨file, host, kind pid, pid, fd, rest, system.kernel.conns pid, memory.requestP⟩
      visited := by
    simp only [System.step, here, chosen, if_neg (not_or.mpr ⟨usable.2.2.2, usable.2.2.1⟩),
      Option.some.injEq] at taken
    subst taken
    exact ⟨_, by simp [System.setProc], safe⟩
  obtain ⟨⟨code', running, safe'⟩, -⟩ := entered.run labels inv' calls going
  obtain ⟨last, finished, same⟩ := (run_cons _ middle final _ _).mp ended
  obtain rfl := Option.some.inj same
  simp only [System.step, running] at finished
  cases code' with
  | done after flow =>
    have served := (safe' middle.kernel (Relies.refl ..)).2
    refine ⟨rest, ?_⟩
    cases flow <;>
    · obtain rfl := Option.some.inj finished
      simp only [System.setProc, Function.update_self, Proc.loop.injEq] at idle
      exact idle.1 ▸ served
  | halt after =>
    obtain rfl := Option.some.inj finished
    simp [System.setProc] at idle
  | call after request continuation => exact absurd finished (by simp)

theorem write_locks_counted
    (ran : run (System.step host kind) (System.init host file heap) labels = some system)
    (writer : kind pid = .writeServer) (between : system.proc pid = .loop memory working) (record : Nat) :
    (memory.writeLock record = true ↔
        ∃! fd, Active (system.kernel.conns pid) memory.requestP record fd) ∧
      (memory.writeLock record = true ↔ system.kernel.locks pid record = some .write) ∧
      ∀ fd final memory', Handles host kind pid fd system final memory memory' →
        (Active (system.kernel.conns pid) memory.requestP record fd →
          final.kernel.conns pid fd = none ∧ memory'.writeLock record = false ∧
            final.kernel.locks pid record = none) ∧
        (¬ Active (system.kernel.conns pid) memory.requestP record fd →
          final.kernel.conns pid fd = none →
            memory'.writeLock record = memory.writeLock record ∧
              final.kernel.locks pid record = system.kernel.locks pid record) := by
  have inv := SystemInv.reachable ran
  have idle := inv.procs pid
  rw [between, writer] at idle
  have idle : Idle file host .writeServer pid working system.kernel memory := idle
  obtain ⟨sole, array, lock⟩ := idle.writer_lock record
  have some_active := idle.count_ne_zero record
  refine ⟨?_, ?_, ?_⟩
  · rw [array, decide_eq_true_iff, some_active]
    refine ⟨fun ⟨fd, active⟩ => ⟨fd, active, fun other active' => ?_⟩, fun ⟨fd, active, _⟩ => ⟨fd, active⟩⟩
    exact (idle.covered.sole rfl fd other record active active').symm
  · rw [array, lock]
    split_ifs with empty <;> simp [empty]
  · intro fd final memory' handles
    obtain ⟨rest, served⟩ := handles.served inv
    have after : Idle file host .writeServer pid rest final.kernel memory' := writer ▸ served.idle
    obtain ⟨-, array', lock'⟩ := after.writer_lock record
    have bound := (idle.usable fd handles.connected).2.1
    have before := activeCount_eq host.maxfd fd (system.kernel.conns pid) memory.requestP record bound
    have then_ := activeCount_eq host.maxfd fd (final.kernel.conns pid) memory'.requestP record bound
    have kept : others host.maxfd fd (final.kernel.conns pid) memory'.requestP record =
        others host.maxfd fd (system.kernel.conns pid) memory.requestP record :=
      others_congr host.maxfd fd record served.kept
    rw [kept] at then_
    constructor
    · intro active
      have closed : final.kernel.conns pid fd = none := served.ended writer active.2.1
      rw [if_neg (by simp [Active, closed])] at then_
      rw [if_pos active] at before
      have empty : activeCount host.maxfd (final.kernel.conns pid) memory'.requestP record = 0 := by omega
      exact ⟨closed, by simp [array', empty], by simp [lock', empty]⟩
    · intro inactive closed
      rw [if_neg (by simp [Active, closed])] at then_
      rw [if_neg inactive] at before
      rw [array', lock', array, lock, before, then_]
      exact ⟨rfl, rfl⟩

theorem write_locks_counted_one_writer :
    ∃ system final memory memory', run (System.step smallHost fun _ => .writeServer) smallStart
        (connect ++ turn 5 (.chunk idLine) ++ [.select () [5] .notReady]) = some system ∧
      system.proc () = .loop memory [5] ∧ system.kernel.locks () 0 = some .write ∧
      Handles smallHost (fun _ => .writeServer) () 5 system final memory memory' ∧
      memory'.writeLock 0 = false ∧ final.kernel.locks () 0 = none := by
  obtain ⟨system, memory, ran, between, seen⟩ := ends_idle (fun _ => .writeServer) smallStart
    (connect ++ turn 5 (.chunk idLine) ++ [.select () [5] .notReady]) [5]
    (fun kernel memory => Active (kernel.conns ()) memory.requestP 0 5 ∧
      kernel.locks () 0 = some .write) (by decide)
  obtain ⟨active, locked⟩ := of_decide_eq_true seen
  obtain ⟨final, memory', ran', between', -⟩ := ends_idle (fun _ => .writeServer) smallStart
    (connect ++ turn 5 (.chunk idLine) ++ [.select () [5] .notReady] ++
      (.visit () :: calls 8 (.chunk bookLine) ++ [.finish ()])) []
    (fun _ _ => true) (by decide)
  obtain ⟨former, ran'', continued⟩ := (run_append _ _ _ _ _).mp ran'
  obtain rfl := Option.some.inj (ran.symm.trans ran'')
  have handles : Handles smallHost (fun _ => .writeServer) () 5 system final memory memory' :=
    ⟨⟨[], between⟩, active.1, ⟨calls 8 (.chunk bookLine), by simp [calls], continued⟩, [], between'⟩
  obtain ⟨-, released, dropped⟩ :=
    ((write_locks_counted ran rfl between 0).2.2 5 final memory' handles).1 active
  exact ⟨system, final, memory, memory', ran, between, locked, handles, released, dropped⟩

end SPHomework.Booking
