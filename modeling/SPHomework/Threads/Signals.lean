import SPHomework.Threads.Phases

set_option autoImplicit false

/-!
# Signals and yields

Once `init_signal` has blocked the two signals, `sighandler` runs in the windows
of `thread_yield` only. Before that it runs wherever a signal is delivered.
-/

namespace SPHomework.Threads

open Lib

-- The code of the threads outside the windows, and the entries of the scheduler.
def Control.guarded : Control → Bool
  | .setup => true
  | .code _ _ => true
  | .ending _ _ => true
  | .yielding _ => true
  | .resumed _ => true
  | .entry _ => true
  | _ => false

-- The execution of `thread_yield` that was started last.
def Process.latest (process : Process) : Option Yielding :=
  process.last.bind fun func => (process.yields func).head?

/-- In a reachable state, what has happened with the signals so far. An execution of `thread_yield`
that is not the latest, or no longer under way, has had its switch if it was to have one. -/
structure TakenAtYields (process : Process) : Prop where
  windows : ∀ delivery ∈ process.deliveries, ∃ func, delivery.2.window = some func
  blocked : process.control.guarded = true → process.mask = baseMask
  single : ∀ func, ∀ yielding ∈ process.yields func, yielding.switches ≤ 1
  switched : ∀ func, ∀ yielding ∈ process.yields func, ∀ signal, yielding.atStart.has signal = true →
    yielding.switches = 1 ∨ process.latest = some yielding ∧ process.control.underway = true
  tstpFirst : ∀ func, ∀ yielding ∈ process.yields func, yielding.atStart = baseMask →
    yielding.served = [.tstp] ∨
      process.latest = some yielding ∧ process.control.underway = true ∧ yielding.served = []
  -- until the next `thread_yield` finds it
  alrmLater : ∀ yielding, process.latest = some yielding → yielding.atStart = baseMask →
    process.pending.alrm = true

-- A signal is delivered before `init_signal` blocks it.
def BeforeBlocked (process : Process) (label : Label) : Prop :=
  process.control = .boot ∧ ∃ signal, label = .deliver signal

def bootDeliveries (process : Process) : Nat :=
  process.deliveries.countP fun delivery => delivery.2 = .boot

-- What was pending at the start of the latest `thread_yield`.
def Process.startedWith (process : Process) : Option SigSet := process.latest.map Yielding.atStart

def Told (process : Process) : Prop :=
  ∀ delivery ∈ process.deliveries, (∃ func, delivery.2.window = some func) ∨
    ∃ signal, (signal, Control.boot) ∈ process.deliveries

def Later (process : Process) : Prop :=
  process.startedWith = some baseMask → process.pending.alrm = true

-- No delivery, and no start of `thread_yield`.
structure Quiet (process next : Process) : Prop where
  deliveries : next.deliveries = process.deliveries
  startedWith : next.startedWith = process.startedWith
  pending : process.pending.alrm = true → next.pending.alrm = true

structure Starts (process next : Process) : Prop where
  deliveries : next.deliveries = process.deliveries
  startedWith : next.startedWith = some next.pending

structure Delivered (process next : Process) (signal : Signal) (control : Control) : Prop where
  deliveries : next.deliveries = process.deliveries ++ [(signal, control)]
  startedWith : next.startedWith = process.startedWith
  pending : next.pending = process.pending.remove signal

/-- What a step is for the signals. `thread_yield` may deliver SIGALRM by its second `sigprocmask`. -/
inductive Does (process next : Process) : Label → Prop
  | quiet {label : Label} (other : ∀ signal, label ≠ .deliver signal) (quiet : Quiet process next) :
    Does process next label
  | starts (starts : Starts process next) : Does process next .next
  | catches {signal : Signal} {control : Control} {func : Func} (window : control.window = some func)
    (second : signal = .alrm → process.control = .firstWindow func)
    (delivered : Delivered process next signal control) : Does process next .next
  | delivers {signal : Signal} (going : process.control.over = false)
    (deliverable : process.deliverable signal = true)
    (delivered : Delivered process next signal process.control) : Does process next (.deliver signal)

section

variable {inputs : Inputs} {process next : Process} {func : Func} {loc : Loc} {queues : Queues Func}

def Yielding.Settled (yielding : Yielding) : Prop := yielding.Done ∨ yielding.Caught 1

-- Started, and without its switch.
structure Yielding.Going (yielding : Yielding) : Prop where
  switches : yielding.switches = 0
  served : yielding.atStart = baseMask → yielding.served = [.tstp] ∨ yielding.served = []

theorem Yielding.Settled.single {yielding : Yielding} (settled : yielding.Settled) : yielding.switches ≤ 1 := by
  rcases settled with done | caught
  · exact done.switches.le.trans done.single
  · exact caught.switches.le

theorem Yielding.Settled.switched {yielding : Yielding} (settled : yielding.Settled) {signal : Signal}
    (pending : yielding.atStart.has signal = true) : yielding.switches = 1 := by
  rcases settled with done | caught
  · exact done.switches.trans (done.pending signal pending)
  · exact caught.switches

theorem Yielding.Settled.tstpFirst {yielding : Yielding} (settled : yielding.Settled)
    (both : yielding.atStart = baseMask) : yielding.served = [.tstp] := by
  rcases settled with done | caught
  · exact done.both both
  · exact caught.both both

def Loc.underway : Loc → Bool
  | .yielding => true
  | .firstWindow => true
  | .secondWindow => true
  | .caught => true
  | _ => false

theorem Stands.underway {control : Control} (stands : Stands func control loc)
    (underway : loc.underway = true) : control.underway = true := by
  cases stands <;> first | rfl | cases underway

theorem Recorded.settled {pending : SigSet} {yields : List Yielding}
    (recorded : Recorded (loc.current pending) yields) (yielding : Yielding) (member : yielding ∈ yields) :
    yielding.Settled ∨ yields.head? = some yielding ∧ loc.underway = true ∧ yielding.Going := by
  have opened : ∀ current : Yielding, current.Open pending → current.Going :=
    fun current opened => ⟨opened.switches, fun _ => .inr opened.served⟩
  have split : ∀ known : Yielding → Prop, Recorded (some known) yields →
      (∀ current, known current → current.Settled ∨ loc.underway = true ∧ current.Going) →
      yielding.Settled ∨ yields.head? = some yielding ∧ loc.underway = true ∧ yielding.Going := by
    rintro known ⟨current, rest, rfl, holds, done⟩ implied
    rcases List.mem_cons.mp member with rfl | earlier
    · exact (implied _ holds).imp_right fun going => ⟨rfl, going⟩
    · exact .inl (.inl (done yielding earlier))
  cases loc with
  | yielding => exact split _ recorded fun current holds => .inr ⟨rfl, opened current holds⟩
  | firstWindow => exact split _ recorded fun current holds => .inr ⟨rfl, opened current holds.1⟩
  | secondWindow => exact split _ recorded fun current holds => .inr ⟨rfl, opened current holds.1⟩
  | caught =>
    exact split _ recorded fun current holds => .inr ⟨rfl, holds.switches, fun both => .inl (holds.both both)⟩
  | resumed => exact split _ recorded fun current holds => .inl (.inr holds)
  | suspended place =>
    cases place with
    | yield => exact split _ recorded fun current holds => .inl (.inr holds)
    | _ => exact .inl (.inl (recorded yielding member))
  | _ => exact .inl (.inl (recorded yielding member))

/-- Each execution of `thread_yield` is settled, or it is the latest and still under way. -/
theorem Phase.settled (phase : Phase inputs process) (yielding : Yielding)
    (member : yielding ∈ process.yields func) :
    yielding.Settled ∨
      process.latest = some yielding ∧ process.control.underway = true ∧ yielding.Going := by
  have unused : process.yields func = [] → yielding.Settled ∨
      process.latest = some yielding ∧ process.control.underway = true ∧ yielding.Going := by
    intro none_
    rw [none_] at member
    cases member
  have idle : ∀ loc : Loc, loc.underway = false → At inputs process func loc → yielding.Settled := by
    intro loc idle at_
    refine (at_.recorded.settled yielding member).resolve_right ?_
    rintro ⟨-, underway, -⟩
    rw [idle] at underway
    cases underway
  rcases phase.stage with fresh | ⟨current, loc, queues, live⟩ | ⟨-, exited, gone, absent⟩
  · exact unused (fresh.yields func)
  · by_cases created : func ∈ createdThreads inputs.args
    · by_cases same : func = current
      · subst same
        refine (live.active.here.recorded.settled yielding member).imp_right ?_
        rintro ⟨head, underway, going⟩
        have under := live.stands.underway underway
        exact ⟨by rw [Process.latest, live.last under]; exact head, under, going⟩
      · rcases live.active.left func created with inside | exited
        · obtain ⟨place, at_⟩ := live.active.others func inside same
          exact .inl (idle _ rfl at_)
        · exact .inl (idle .gone rfl (live.active.exited func exited).2)
    · exact unused (live.active.absent func created).2
  · by_cases created : func ∈ createdThreads inputs.args
    · exact .inl (idle .gone rfl (gone func ((exited func).mpr created)))
    · exact unused (absent func created).2

theorem Phase.blocked (phase : Phase inputs process) (guarded : process.control.guarded = true) :
    process.mask = baseMask := by
  cases phase with
  | setup _ mask _ _ => exact mask
  | empty _ _ mask _ _ => exact mask
  | live live =>
    rw [live.mask]
    generalize process.control = control at guarded
    cases control <;> first | rfl | cases guarded
  | boot control _ _ => simp [control, Control.guarded] at guarded
  | stray control _ _ _ =>
    rcases control with ⟨signo, control⟩ | control <;> simp [control, Control.guarded] at guarded
  | ended control _ => simp [control, Control.guarded] at guarded
  | dead control _ => simp [control, Control.guarded] at guarded

-- The handler interrupts a running thread in a window only.
theorem Live.window {signal : Signal} (live : Live inputs process func loc queues)
    (deliverable : process.deliverable signal = true) : process.control.window = some func := by
  have stands := live.stands
  have mask := live.mask
  generalize process.control = control at stands mask
  rw [Process.deliverable, mask] at deliverable
  cases stands <;> first | rfl | (cases signal <;> simp [Control.mask, baseMask, SigSet.has] at deliverable)

theorem startedWith_onHead (func : Func) (change : Yielding → Yielding)
    (kept : ∀ yielding, (change yielding).atStart = yielding.atStart) (last : next.last = process.last)
    (yields : next.yields = Function.update process.yields func (onHead change (process.yields func))) :
    next.startedWith = process.startedWith := by
  rw [Process.startedWith, Process.startedWith, Process.latest, Process.latest, last, yields]
  cases process.last with
  | none => rfl
  | some other =>
    simp only [Option.bind_some]
    by_cases same : other = func
    · subst same
      rw [Function.update_self]
      cases process.yields other with
      | nil => rfl
      | cons current rest => exact congrArg some (kept current)
    · rw [Function.update_of_ne same]

theorem deliver_delivered (process : Process) (signal : Signal) :
    Delivered process (process.deliver signal) signal process.control := by
  refine ⟨rfl, ?_, rfl⟩
  cases window : process.control.window with
  | none => simp [Process.startedWith, Process.latest, Process.deliver, window]
  | some func =>
    refine startedWith_onHead func (fun current => { current with served := current.served ++ [signal] })
      (fun _ => rfl) rfl ?_
    simp [Process.deliver, window]

theorem Quiet.refl (process : Process) : Quiet process process := ⟨rfl, rfl, id⟩

theorem onYield_quiet (process : Process) (func : Func) (change : Yielding → Yielding)
    (kept : ∀ yielding, (change yielding).atStart = yielding.atStart) :
    Quiet process (process.onYield func change) :=
  ⟨rfl, startedWith_onHead func change kept rfl rfl, id⟩

theorem finishYield_quiet (process : Process) (func : Func) : Quiet process (process.finishYield func) := by
  obtain ⟨deliveries, startedWith, pending⟩ := onYield_quiet process func
    (fun current => { current with finished := true }) fun _ => rfl
  rw [Process.finishYield, setMask_base]
  exact ⟨deliveries, startedWith, pending⟩

theorem runCode_quiet {point : Point} {thread : Func}
    (taken : process.runCode inputs func point thread = some next) : Quiet process next := by
  obtain ⟨_, -, rfl⟩ := Option.map_eq_some_iff.mp taken
  exact ⟨rfl, rfl, id⟩

theorem createThreads_quiet (inputs : Inputs) (process : Process) :
    Quiet process (process.createThreads inputs) := by
  rw [Process.createThreads]
  split <;> exact ⟨rfl, rfl, id⟩

theorem runMacro_does (process : Process) (func thread : Func) (act : Act) :
    Does process (process.runMacro func thread act) .next := by
  cases act with
  | yield =>
    refine .starts ⟨rfl, ?_⟩
    simp [Process.startedWith, Process.latest, Process.runMacro, Process.setEnvironment]
  | asyncRead => exact .quiet (fun _ same => by cases same) ⟨rfl, rfl, id⟩
  | exit => exact .quiet (fun _ same => by cases same) ⟨rfl, rfl, id⟩

theorem next_does (taken : process.next inputs = some next) : Does process next .next := by
  have quiet : Quiet process next → Does process next .next := .quiet fun _ same => by cases same
  rcases control : process.control <;> simp only [Process.next, control] at taken
  case boot =>
    split_ifs at taken <;> cases taken
    · exact quiet ⟨rfl, rfl, id⟩
    · rw [setMask_base] at quiet ⊢
      exact quiet ⟨rfl, rfl, id⟩
  case setup =>
    cases taken
    exact quiet (createThreads_quiet inputs process)
  case code func point =>
    cases runs : running process.sched <;> simp only [runs] at taken
    · cases taken
      exact quiet ⟨rfl, rfl, id⟩
    · exact quiet (runCode_quiet taken)
  case ending func act =>
    cases runs : running process.sched <;> simp only [runs] at taken <;> cases taken
    · exact quiet ⟨rfl, rfl, id⟩
    · exact runMacro_does process func _ act
  case yielding func =>
    cases taken
    rw [setMask_alrm] at quiet ⊢
    split_ifs at quiet ⊢
    · obtain ⟨deliveries, startedWith, pending⟩ := deliver_delivered
        { process with mask := alrmMask, control := .firstWindow func } .tstp
      exact .catches rfl (fun other => by cases other) ⟨deliveries, startedWith, pending⟩
    · exact quiet ⟨rfl, rfl, id⟩
  case firstWindow func =>
    cases taken
    rw [setMask_tstp] at quiet ⊢
    split_ifs at quiet ⊢
    · obtain ⟨deliveries, startedWith, pending⟩ := deliver_delivered
        { process with mask := tstpMask, control := .secondWindow func } .alrm
      exact .catches rfl (fun _ => control) ⟨deliveries, startedWith, pending⟩
    · exact quiet ⟨rfl, rfl, id⟩
  case secondWindow func =>
    cases taken
    exact quiet (finishYield_quiet process func)
  case resumed func =>
    cases taken
    exact quiet (finishYield_quiet process func)
  case handler signo =>
    cases taken
    rw [setMask_base] at quiet ⊢
    exact quiet ⟨rfl, rfl, id⟩
  case leaving =>
    split_ifs at taken <;> cases taken <;> exact quiet ⟨rfl, rfl, id⟩
  all_goals cases taken

theorem arrive_quiet {signal : Signal} (taken : process.arrive signal = some next) : Quiet process next := by
  simp only [Process.arrive] at taken
  split_ifs at taken
  · cases taken
    exact ⟨rfl, rfl, fun pending => @SigSet.has_add process.pending .alrm signal pending⟩
  · cases signal <;> cases taken <;> exact ⟨rfl, rfl, id⟩

theorem countSwitch_quiet (process : Process) (jmpval : Jump) :
    Quiet process (process.countSwitch jmpval) := by
  cases jmpval with
  | yield =>
    cases runs : running process.sched with
    | none => simpa [Process.countSwitch, runs] using Quiet.refl process
    | some thread =>
      simp only [Process.countSwitch, runs]
      exact onYield_quiet process thread _ fun _ => rfl
  | _ => simpa [Process.countSwitch] using Quiet.refl process

theorem schedule_quiet {polled : FdSet} {blocking : Blocking}
    (taken : process.schedule inputs polled blocking = some next) : Quiet process next := by
  rcases control : process.control <;> simp only [Process.schedule, control] at taken <;> cases taken
  obtain ⟨deliveries, startedWith, pending⟩ := countSwitch_quiet process _
  rcases scheduler inputs.fd _ polled blocking process.sched with _ | ⟨sched, thread | _⟩ <;>
    exact ⟨deliveries, startedWith, pending⟩

theorem step_does {label : Label} (taken : process.step inputs label = some next) :
    Does process next label := by
  cases label with
  | arrive signal => exact .quiet (fun _ same => by cases same) (arrive_quiet taken)
  | deliver signal =>
    obtain ⟨going, deliverable, rfl⟩ := step_deliver taken
    exact .delivers going deliverable (deliver_delivered process signal)
  | next => exact next_does taken
  | schedule polled blocking => exact .quiet (fun _ same => by cases same) (schedule_quiet taken)

theorem bootDeliveries_step {label : Label} (taken : process.step inputs label = some next) :
    (¬ BeforeBlocked process label → bootDeliveries next = bootDeliveries process) ∧
    (BeforeBlocked process label → bootDeliveries process < bootDeliveries next) := by
  simp only [bootDeliveries, BeforeBlocked]
  cases step_does taken with
  | quiet other quiet => simp [quiet.deliveries, other]
  | starts starts => simp [starts.deliveries]
  | @catches signal control func window second delivered =>
    have elsewhere : control ≠ .boot := by
      rintro rfl
      cases window
    simp [delivered.deliveries, elsewhere]
  | delivers going deliverable delivered =>
    by_cases boot : process.control = .boot <;> simp [delivered.deliveries, boot]

theorem Told.step {label : Label} (phase : Phase inputs process) (told : Told process)
    (taken : process.step inputs label = some next) : Told next := by
  have more : ∀ added, next.deliveries = process.deliveries ++ [added] →
      ((∃ func, added.2.window = some func) ∨ ∃ signal, (signal, Control.boot) ∈ next.deliveries) → Told next := by
    intro added same last delivery member
    rw [same, List.mem_append, List.mem_singleton] at member
    rcases member with before | rfl
    · refine (told delivery before).imp_right ?_
      rintro ⟨signal, boot⟩
      exact ⟨signal, same ▸ List.mem_append_left _ boot⟩
    · exact last
  cases step_does taken with
  | quiet other quiet => exact fun delivery => quiet.deliveries ▸ told delivery
  | starts starts => exact fun delivery => starts.deliveries ▸ told delivery
  | catches window second delivered => exact more _ delivered.deliveries (.inl ⟨_, window⟩)
  | @delivers signal going deliverable delivered =>
    refine more _ delivered.deliveries ?_
    cases phase with
    | boot control _ _ => exact .inr ⟨signal, by simp [delivered.deliveries, control]⟩
    | stray _ _ _ boot =>
      obtain ⟨origin, boot⟩ := boot
      exact .inr ⟨origin, delivered.deliveries ▸ List.mem_append_left _ boot⟩
    | live live => exact .inl ⟨_, live.window deliverable⟩
    | setup _ mask _ _ => simp [not_deliverable mask] at deliverable
    | empty _ _ mask _ _ => simp [not_deliverable mask] at deliverable
    | ended control _ => simp [control, Control.over] at going
    | dead control _ => simp [control, Control.over] at going

-- In the windows SIGTSTP was not pending at the start.
theorem Live.notBoth (live : Live inputs process func loc queues)
    (window : process.control.window = some func) : process.startedWith ≠ some baseMask := by
  have stands := live.stands
  have last := live.last
  generalize process.control = control at stands last window
  have idle : ∃ current rest, process.yields func = current :: rest ∧ current.atStart.tstp = false := by
    cases stands with
    | firstWindow =>
      obtain ⟨current, rest, same, ⟨-, idle⟩, -⟩ := live.active.here.recorded
      exact ⟨current, rest, same, idle⟩
    | secondWindow =>
      obtain ⟨current, rest, same, ⟨-, idle, -⟩, -⟩ := live.active.here.recorded
      exact ⟨current, rest, same, idle⟩
    | _ => cases window
  have started : process.last = some func := by
    cases stands <;> first | exact last rfl | cases window
  obtain ⟨current, rest, same, idle⟩ := idle
  intro both
  simp only [Process.startedWith, Process.latest, started, same, Option.bind_some, List.head?_cons,
    Option.map_some, Option.some.injEq] at both
  rw [both] at idle
  cases idle

theorem Fresh.startedWith (fresh : Fresh process) : process.startedWith ≠ some baseMask := by
  simp [Process.startedWith, Process.latest, fresh.last]

theorem Phase.notBoth (phase : Phase inputs process) (going : process.control.over = false)
    (window : ∀ func loc queues, Live inputs process func loc queues → process.control.window = some func) :
    process.startedWith ≠ some baseMask := by
  rcases phase.stage with fresh | ⟨func, loc, queues, live⟩ | ⟨control, -⟩
  · exact fresh.startedWith
  · exact live.notBoth (window func loc queues live)
  · simp [control, Control.over] at going

theorem Later.step {label : Label} (phase : Phase inputs process) (later : Later process)
    (taken : process.step inputs label = some next) : Later next := by
  have delivery : ∀ signal control, Delivered process next signal control →
      (signal = .alrm → process.startedWith ≠ some baseMask) → Later next := by
    intro signal control delivered alrm both
    rw [delivered.startedWith] at both
    cases signal with
    | tstp => exact delivered.pending ▸ later both
    | alrm => exact absurd both (alrm rfl)
  cases step_does taken with
  | quiet other quiet => exact fun both => quiet.pending (later (quiet.startedWith ▸ both))
  | starts starts =>
    intro both
    rw [starts.startedWith, Option.some.injEq] at both
    rw [both]
    rfl
  | catches window second delivered =>
    refine delivery _ _ delivered fun alrm => phase.notBoth ?_ fun func loc queues live => ?_
    · rw [second alrm]
      rfl
    · have stands := live.stands
      rw [second alrm] at stands ⊢
      cases stands
      rfl
  | delivers going deliverable delivered =>
    exact delivery _ _ delivered fun _ =>
      phase.notBoth going fun func loc queues live => live.window deliverable

/-- What every reachable state satisfies. -/
structure Inv (inputs : Inputs) (process : Process) : Prop where
  phase : Phase inputs process
  told : Told process
  later : Later process

theorem Inv.run {memory : Func → Tcb} {labels : List Label}
    (ran : run (Process.step inputs) (Process.begin memory) labels = some process) : Inv inputs process := by
  refine run_invariant (Process.step inputs) (Inv inputs) ?_ _ _ labels ?_ ran
  · exact fun state label next inv taken =>
      ⟨inv.phase.step taken, inv.told.step inv.phase taken, inv.later.step inv.phase taken⟩
  · exact ⟨Phase.begin inputs memory, nofun, nofun⟩

theorem bootDeliveries_none {memory : Func → Tcb} {labels : List Label}
    (ran : run (Process.step inputs) (Process.begin memory) labels = some process) :
    bootDeliveries process = 0 ↔ Always (Process.step inputs)
      (fun process label => ¬ BeforeBlocked process label) (Process.begin memory) labels :=
  (run_counter (Process.step inputs) (fun process label => ¬ BeforeBlocked process label) bootDeliveries
    (fun _ _ _ taken later => (bootDeliveries_step taken).1 later)
    (fun _ _ _ taken early => (bootDeliveries_step taken).2 (not_not.mp early)) _ _ labels ran).2

theorem Told.windows (told : Told process) (none_ : bootDeliveries process = 0)
    (delivery : Signal × Control) (member : delivery ∈ process.deliveries) :
    ∃ func, delivery.2.window = some func := by
  refine (told delivery member).resolve_right ?_
  rintro ⟨signal, boot⟩
  simpa using List.countP_eq_zero.mp none_ _ boot

theorem Inv.takenAtYields (inv : Inv inputs process) (none_ : bootDeliveries process = 0) :
    TakenAtYields process where
  windows := inv.told.windows none_
  blocked := inv.phase.blocked
  single func yielding member := by
    rcases inv.phase.settled yielding member with settled | ⟨-, -, going⟩
    · exact settled.single
    · exact going.switches.le.trans (Nat.zero_le 1)
  switched func yielding member signal pending := by
    refine (inv.phase.settled yielding member).imp ?_ ?_
    · exact fun settled => settled.switched pending
    · exact fun ⟨latest, underway, _⟩ => ⟨latest, underway⟩
  tstpFirst func yielding member both := by
    rcases inv.phase.settled yielding member with settled | ⟨latest, underway, going⟩
    · exact .inl (settled.tstpFirst both)
    · exact (going.served both).imp_right fun none_ => ⟨latest, underway, none_⟩
  alrmLater yielding latest both := inv.later (by rw [Process.startedWith, latest, Option.map_some, both])

/-- Signals are taken at yields only, in the runs that deliver none before `init_signal` has blocked
them. -/
theorem signals_taken_at_yields_iff (memory : Func → Tcb) (labels : List Label)
    (ran : run (Process.step inputs) (Process.begin memory) labels = some process) :
    TakenAtYields process ↔ Always (Process.step inputs)
      (fun process label => ¬ BeforeBlocked process label) (Process.begin memory) labels := by
  rw [← bootDeliveries_none ran]
  refine ⟨fun taken => List.countP_eq_zero.mpr fun delivery member boot => ?_, (Inv.run ran).takenAtYields⟩
  obtain ⟨func, window⟩ := taken.windows delivery member
  rw [of_decide_eq_true boot] at window
  cases window

end

def oneThread : Inputs where
  args func := if func = .fibonacci then 3 else -1
  results _ _ := []
  fd _ := 3

def noMemory (func : Func) : Tcb := ⟨setupVars func 0, (func, .setup)⟩

-- Both signals are pending at the first `thread_yield`, and SIGALRM at the second.
def bothPending : List Label :=
  [Label.steps 4, [.schedule (fun _ => false) .all, .next, .arrive .alrm, .arrive .tstp],
    Label.steps 4, [.schedule (fun _ => false) .all], Label.steps 7].flatten

theorem bothPending_runs :
    (run (Process.step oneThread) (Process.begin noMemory) bothPending).isSome = true := by decide +kernel

theorem signals_taken_at_yields_both :
    ∃ process, run (Process.step oneThread) (Process.begin noMemory) bothPending = some process ∧
      process.deliveries = [(.tstp, .firstWindow .fibonacci), (.alrm, .secondWindow .fibonacci)] ∧
      TakenAtYields process := by
  have ran := (Option.some_get bothPending_runs).symm
  refine ⟨_, ran, by decide +kernel, (signals_taken_at_yields_iff noMemory bothPending ran).mpr ?_⟩
  exact (bootDeliveries_none ran).mp (by decide +kernel)

-- SIGTSTP between the two calls of `signal`: `longjmp` uses a `sched_buf` that was never set.
def earlySignal : List Label := [.next, .arrive .tstp, .deliver .tstp, .next, .next]

theorem signal_taken_in_init_signal :
    ∃ process, run (Process.step oneThread) (Process.begin noMemory) earlySignal = some process ∧
      process.deliveries = [(.tstp, .boot)] ∧ process.control = .dead ∧ ¬ TakenAtYields process := by
  refine ⟨_, rfl, rfl, rfl, fun taken => ?_⟩
  obtain ⟨func, window⟩ := taken.windows (.tstp, .boot) List.mem_cons_self
  cases window

end SPHomework.Threads
