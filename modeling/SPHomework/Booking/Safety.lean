import SPHomework.Booking.Handlers

set_option autoImplicit false

/-!
# What holds in every reachable state

Each process is idle in its loop, safe in a handler, or gone; every step of one
process keeps the others where they are.
-/

namespace SPHomework.Booking

open Lib

variable {P : Type} [DecidableEq P] [Fintype P]

def ProcOk (file : Nat → Record) (host : Host) (kind : ServerKind) (pid : P) (kernel : Kernel P) :
    Proc → Prop
  | .loop memory working => Idle file host kind pid working kernel memory
  | .handling fd working code => ∃ conns requests,
    (Visit.mk file host kind pid fd working conns requests).party.Safe
      (fun kernel' memory' _ =>
        Served ⟨file, host, kind, pid, fd, working, conns, requests⟩ kernel' memory')
      kernel code
  | .exited => (∀ record, kernel.locks pid record = none) ∧ ∀ fd, kernel.conns pid fd = none

structure SystemInv (file : Nat → Record) (host : Host) (kind : P → ServerKind) (system : System P) :
    Prop where
  kernel : KernelInv file system.kernel
  procs : ∀ pid, ProcOk file host (kind pid) pid system.kernel (system.proc pid)

variable {file : Nat → Record} {host : Host} {kind : P → ServerKind} {system next : System P}

theorem ProcOk.stable {kind : ServerKind} {pid : P} {before after : Kernel P} {proc : Proc}
    (ok : ProcOk file host kind pid before proc) (moved : Relies file pid before after) :
    ProcOk file host kind pid after proc := by
  cases proc with
  | loop memory working => exact Idle.stable ok moved.toKeeps
  | handling fd working code =>
    obtain ⟨conns, requests, safe⟩ := ok
    exact ⟨conns, requests, safe.stable moved⟩
  | exited =>
    refine ⟨fun record => ?_, fun fd => ?_⟩
    · rw [moved.locks]
      exact ok.1 record
    · rw [moved.conns]
      exact ok.2 fd

/-- A step of one process: it keeps its promise to the others, and is left in order. -/
def Moves (file : Nat → Record) (host : Host) (kind : P → ServerKind) (pid : P)
    (system next : System P) : Prop :=
  ∃ kernel proc, next = { system.setProc pid proc with kernel := kernel } ∧
    Promise file pid system.kernel kernel ∧ ProcOk file host (kind pid) pid kernel proc

theorem Moves.proc {pid : P} {proc : Proc} (ok : ProcOk file host (kind pid) pid system.kernel proc) :
    Moves file host kind pid system (system.setProc pid proc) :=
  ⟨system.kernel, proc, rfl, Promise.refl file pid system.kernel, ok⟩

theorem Moves.other {pid : P} (moves : Moves file host kind pid system next) {other : P}
    (different : other ≠ pid) :
    next.proc other = system.proc other ∧ Relies file other system.kernel next.kernel := by
  obtain ⟨kernel, proc, rfl, promise, _⟩ := moves
  exact ⟨Function.update_of_ne different _ _, promise.1 other different⟩

theorem SystemInv.moves {pid : P} (inv : SystemInv file host kind system)
    (moves : Moves file host kind pid system next) : SystemInv file host kind next := by
  obtain ⟨kernel, proc, rfl, promise, ok⟩ := id moves
  refine ⟨promise.2 inv.kernel, fun other => ?_⟩
  -- the process that moved is in order, and the others rely on its promise only
  by_cases same : other = pid
  · subst same
    simp only [System.setProc, Function.update_self]
    exact ok
  · obtain ⟨unmoved, relies⟩ := moves.other same
    rw [unmoved]
    exact (inv.procs other).stable relies

omit [Fintype P] in
theorem promise_exit (pid : P) (kernel : Kernel P) : Promise file pid kernel (kernel.exit pid) :=
  Promise.private rfl rfl
    (fun _ different => ⟨Function.update_of_ne different _ _, rfl, Function.update_of_ne different _ _, rfl⟩)
    fun inv => inv.exit pid

theorem Moves.exit (pid : P) :
    Moves file host kind pid system
      { system.setProc pid .exited with kernel := system.kernel.exit pid } :=
  ⟨system.kernel.exit pid, .exited, rfl, promise_exit pid system.kernel, by simp, by simp⟩

omit [DecidableEq P] [Fintype P] in
theorem Idle.report {kind : ServerKind} {pid : P} {kernel : Kernel P} {memory : Memory}
    {ready : List Nat} {accept : Accept} (idle : Idle file host kind pid [] kernel memory)
    (reported : Reported host memory ready accept) : Idle file host kind pid ready kernel memory :=
  ⟨idle.inv, idle.usable, idle.slots, idle.tally, idle.clean, idle.master,
    fun fd member => idle.master fd (reported.2.1 fd member).2.2,
    reported.1.imp fun less => less.ne⟩

omit [Fintype P] in
theorem promise_accept (pid : P) (fd : Nat) (kernel : Kernel P) :
    Promise file pid kernel (acceptConn kernel pid fd) :=
  Promise.private rfl rfl (fun _ different => ⟨rfl, rfl, Function.update_of_ne different _ _, rfl⟩)
    fun inv => inv.acceptConn

omit [Fintype P] in
theorem Idle.accept {kind : ServerKind} {pid : P} {kernel : Kernel P} {memory : Memory} {fd : Nat}
    {working : List Nat} (idle : Idle file host kind pid working kernel memory)
    (fresh : Fresh host kernel pid fd) :
    Idle file host kind pid working (acceptConn kernel pid fd) (acceptRequest memory fd) := by
  obtain ⟨low, high, notFile, notListen, closed⟩ := fresh
  have elsewhere : ∀ other, other ≠ fd →
      (acceptConn kernel pid fd).conns pid other = kernel.conns pid other ∧
        (acceptRequest memory fd).requestP other = memory.requestP other := by
    intro other different
    simp [acceptConn, acceptRequest, setRequest, different]
  have opened : (acceptConn kernel pid fd).conns pid fd = some ⟨kernel.nextSid, [], [.enterId]⟩ := by
    simp [acceptConn]
  have request : (acceptRequest memory fd).requestP fd =
      { memory.requestP fd with connFd := fd, stage := 0 } := setRequest_requestP ..
  have grows : ∀ other, (kernel.conns pid other).isSome →
      ((acceptConn kernel pid fd).conns pid other).isSome := by
    intro other present
    by_cases same : other = fd
    · simp [same, opened]
    · rwa [(elsewhere other same).1]
  refine ⟨idle.inv.acceptConn, ?_, ?_, ?_, idle.clean, ?_, ?_, idle.distinct⟩
  · intro other present
    by_cases same : other = fd
    · exact same ▸ ⟨low, high, notFile, notListen⟩
    · exact idle.usable other ((elsewhere other same).1 ▸ present)
  · intro other found here
    by_cases same : other = fd
    · subst same
      obtain rfl := Option.some.inj (opened.symm.trans here)
      rw [request]
      refine ⟨rfl, fun booked => ?_, .inl ⟨rfl, rfl, rfl⟩⟩
      obtain ⟨former, member, sid⟩ := List.mem_map.mp booked
      exact absurd (idle.inv.stored former member).1 (by rw [sid]; exact lt_irrefl _)
    · rw [(elsewhere other same).2]
      exact (idle.slots other found ((elsewhere other same).1 ▸ here)).stable Iff.rfl fun _ => rfl
  · intro record
    have count : activeCount host.maxfd ((acceptConn kernel pid fd).conns pid)
        (acceptRequest memory fd).requestP record =
        activeCount host.maxfd (kernel.conns pid) memory.requestP record := by
      rw [activeCount_eq _ fd _ _ _ high, activeCount_eq _ fd _ _ _ high,
        others_congr host.maxfd fd record elsewhere, if_neg (by simp [Active, request]),
        if_neg (by simp [Active, closed])]
    rw [count]
    exact idle.tally record
  · intro other member
    by_cases same : other = fd
    · simp [same, opened]
    · refine (idle.master other ?_).imp_right (grows other)
      simpa [acceptRequest, same] using member
  · exact fun other member => (idle.ready other member).imp_right (grows other)

omit [DecidableEq P] [Fintype P] in
theorem Idle.skip {kind : ServerKind} {pid : P} {kernel : Kernel P} {memory : Memory}
    {working rest : List Nat} (idle : Idle file host kind pid working kernel memory)
    (part : rest <:+ working) : Idle file host kind pid rest kernel memory :=
  ⟨idle.inv, idle.usable, idle.slots, idle.tally, idle.clean, idle.master,
    fun fd member => idle.ready fd (part.subset member), idle.distinct.sublist part.sublist⟩

def Label.pid : Label P → P
  | .select pid _ _ => pid
  | .visit pid => pid
  | .call pid _ => pid
  | .finish pid => pid

theorem step_moves {label : Label P} (inv : SystemInv file host kind system)
    (taken : system.step host kind label = some next) : Moves file host kind label.pid system next := by
  cases label with
  | select pid ready accept =>
    have ok := inv.procs pid
    simp only [System.step] at taken
    split at taken
    · rename_i memory here
      rw [here] at ok
      split_ifs at taken with reported
      have idle := Idle.report ok reported
      cases accept with
      | notReady => exact Option.some.inj taken ▸ .proc idle
      | again => exact Option.some.inj taken ▸ .proc ok
      | fatal => exact Option.some.inj taken ▸ .exit pid
      | conn fd =>
        simp only at taken
        split_ifs at taken with fresh
        exact Option.some.inj taken ▸
          ⟨_, _, rfl, promise_accept pid fd system.kernel, idle.accept fresh⟩
    · exact absurd taken (by simp)
  | visit pid =>
    have ok := inv.procs pid
    simp only [System.step] at taken
    split at taken
    · rename_i memory fd working here
      rw [here] at ok
      split_ifs at taken with skipped
      · exact Option.some.inj taken ▸ .proc (Idle.skip ok (List.suffix_cons fd working))
      · obtain ⟨code, chosen, safe⟩ := handler_safe ok (not_or.mp skipped).1
        rw [chosen] at taken
        exact Option.some.inj taken ▸ .proc ⟨_, _, safe⟩
    · exact absurd taken (by simp)
  | call pid choice =>
    have ok := inv.procs pid
    simp only [System.step] at taken
    split at taken
    · rename_i fd working memory request continuation here
      rw [here] at ok
      obtain ⟨conns, requests, safe⟩ := ok
      obtain ⟨⟨answer, after⟩, executed, rfl⟩ := Option.map_eq_some_iff.mp taken
      obtain ⟨promise, rest⟩ := (safe system.kernel (Relies.refl ..)).2 answer after ⟨choice, executed⟩
      exact ⟨after, _, rfl, promise, conns, requests, rest⟩
    · exact absurd taken (by simp)
  | finish pid =>
    have ok := inv.procs pid
    simp only [System.step] at taken
    split at taken
    · rename_i fd working memory here
      rw [here] at ok
      obtain ⟨conns, requests, safe⟩ := ok
      exact Option.some.inj taken ▸ .proc (safe system.kernel (Relies.refl ..)).2.idle
    · rename_i fd working memory here
      rw [here] at ok
      obtain ⟨conns, requests, safe⟩ := ok
      exact Option.some.inj taken ▸
        .proc ((safe system.kernel (Relies.refl ..)).2.idle.skip List.nil_suffix)
    · exact Option.some.inj taken ▸ .exit pid
    · exact absurd taken (by simp)

theorem SystemInv.step {label : Label P} (inv : SystemInv file host kind system)
    (taken : system.step host kind label = some next) : SystemInv file host kind next :=
  inv.moves (step_moves inv taken)

theorem SystemInv.init (heap : P → Nat → List UInt8) :
    SystemInv file host kind (System.init host file heap) := by
  have closed : ∀ pid fd, (System.init host file heap).kernel.conns pid fd = none := fun _ _ => rfl
  have start : KernelInv file (System.init host file heap).kernel := by
    constructor <;> simp [System.init, afterBookings, deltas]
  have idle : ∀ pid record, activeCount host.maxfd ((System.init host file heap).kernel.conns pid)
      (initMemory host (heap pid)).requestP record = 0 := by
    intro pid record
    refine Finset.card_eq_zero.mpr (Finset.filter_eq_empty_iff.mpr fun fd _ active => ?_)
    simp [Active, closed] at active
  refine ⟨start, fun pid => ⟨start, by simp [closed], by simp [closed], fun record => ?_, fun _ _ => rfl,
    fun fd member => .inl (by simpa [initMemory] using member), by simp, List.nodup_nil⟩⟩
  rw [idle]
  exact ⟨rfl, by simp [initMemory, System.init], by simp [initMemory, System.init], fun _ => Nat.zero_le 1⟩

theorem SystemInv.reachable {labels : List (Label P)} {heap : P → Nat → List UInt8}
    (ran : run (System.step host kind) (System.init host file heap) labels = some system) :
    SystemInv file host kind system :=
  run_invariant _ (SystemInv file host kind) (fun _ _ _ inv taken => inv.step taken) _ _ labels
    (SystemInv.init heap) ran

theorem SystemInv.covered (inv : SystemInv file host kind system) {pid : P} {memory : Memory}
    (running : (system.proc pid).memory = some memory) :
    Covered host (kind pid) pid system.kernel memory := by
  have ok := inv.procs pid
  cases here : system.proc pid with
  | loop former working =>
    rw [here] at ok running
    exact Option.some.inj running ▸ Idle.covered ok
  | handling fd working code =>
    rw [here] at ok running
    obtain ⟨conns, requests, safe⟩ := ok
    exact Option.some.inj running ▸ safe.seen
  | exited => simp [here, Proc.memory] at running

end SPHomework.Booking
