import SPHomework.Threads.Tracking

set_option autoImplicit false

/-!
# The phases of a run

`init_signal`, `init_threads`, the threads and the return of the scheduler. One
step lemma for each kind of step, and from them the invariant of a whole run.
-/

namespace SPHomework.Threads

open Lib

/-- Where the running thread is, by what the process does next. -/
inductive Stands (func : Func) : Control → Loc → Prop
  | code (point : Point) : Stands func (.code func point) (.code point)
  | ending (act : Act) : Stands func (.ending func act) (.ending act)
  | yielding : Stands func (.yielding func) .yielding
  | firstWindow : Stands func (.firstWindow func) .firstWindow
  | secondWindow : Stands func (.secondWindow func) .secondWindow
  | resumed : Stands func (.resumed func) .resumed
  | handler (signo : Signal) : Stands func (.handler signo) .caught
  | leaving : Stands func .leaving .caught
  | first : Stands func (.entry .first) (.suspended .setup)
  | yield : Stands func (.entry .yield) .caught
  | asyncRead : Stands func (.entry .asyncRead) (.suspended .asyncRead)
  | exit : Stands func (.entry .exit) .gone

-- The mask while threads run.
def Control.mask : Control → SigSet
  | .firstWindow _ => alrmMask
  | .secondWindow _ => tstpMask
  | _ => baseMask

-- Between the start of `thread_yield` and the scheduler's entry for it.
def Control.underway : Control → Bool
  | .yielding _ => true
  | .firstWindow _ => true
  | .secondWindow _ => true
  | .handler _ => true
  | .leaving => true
  | .entry .yield => true
  | _ => false

/-- No thread has run. -/
structure Fresh (process : Process) : Prop where
  output : process.output = []
  exited : process.exited = []
  reads : ∀ func, process.reads func = 0
  yields : ∀ func, process.yields func = []
  last : process.last = none

structure Live (inputs : Inputs) (process : Process) (func : Func) (loc : Loc) (queues : Queues Func) : Prop where
  stands : Stands func process.control loc
  active : Active inputs process func loc queues
  mask : process.mask = process.control.mask
  handlers : 2 ≤ process.handlers
  last : process.control.underway = true → process.last = some func

/-- All threads have exited. -/
structure Ended (inputs : Inputs) (process : Process) : Prop where
  exited : ∀ thread, thread ∈ process.exited ↔ thread ∈ createdThreads inputs.args
  gone : ∀ thread ∈ process.exited, At inputs process thread .gone
  absent : ∀ thread, thread ∉ createdThreads inputs.args →
    printedBy process thread = [] ∧ process.yields thread = []

inductive Phase (inputs : Inputs) (process : Process) : Prop
  | boot (control : process.control = .boot) (buffer : process.schedBuf = false) (fresh : Fresh process)
  -- in the handler before `init_signal` has blocked the signals
  | stray (control : (∃ signo, process.control = .handler signo) ∨ process.control = .leaving)
    (buffer : process.schedBuf = false) (fresh : Fresh process)
    (boot : ∃ signal, (signal, Control.boot) ∈ process.deliveries)
  | setup (control : process.control = .setup) (mask : process.mask = baseMask)
    (handlers : 2 ≤ process.handlers) (fresh : Fresh process)
  | empty (control : process.control = .entry .first) (sched : process.sched = emptySched)
    (mask : process.mask = baseMask) (handlers : 2 ≤ process.handlers) (fresh : Fresh process)
  | live {func : Func} {loc : Loc} {queues : Queues Func} (live : Live inputs process func loc queues)
  | ended (control : process.control = .returned) (ended : Ended inputs process)
  | dead (control : process.control = .dead) (fresh : Fresh process)

theorem SigSet.has_add {set : SigSet} {signal other : Signal} (has : set.has signal = true) :
    (set.add other).has signal = true := by
  cases signal <;> cases other <;> simp_all [SigSet.has, SigSet.add]

theorem setMask_base (process : Process) (control : Control) :
    process.setMask baseMask control = { process with mask := baseMask, control := control } := by
  simp [Process.setMask, Process.deliverable, baseMask, SigSet.has]

theorem Yielding.Open.grows {pending more : SigSet} {current : Yielding} (opened : current.Open pending)
    (grows : ∀ signal, pending.has signal = true → more.has signal = true) : current.Open more :=
  ⟨opened.going, opened.served, opened.switches, fun signal has => grows signal (opened.pending signal has)⟩

section

variable {inputs : Inputs} {process next : Process} {func : Func} {loc loc' : Loc} {queues : Queues Func}

theorem Recorded.grows {pending more : SigSet} {yields : List Yielding}
    (recorded : Recorded (loc.current pending) yields)
    (grows : ∀ signal, pending.has signal = true → more.has signal = true) :
    Recorded (loc.current more) yields := by
  cases loc with
  | yielding =>
    obtain ⟨current, rest, same, opened, done⟩ := recorded
    exact ⟨current, rest, same, opened.grows grows, done⟩
  | firstWindow =>
    obtain ⟨current, rest, same, ⟨opened, known⟩, done⟩ := recorded
    exact ⟨current, rest, same, ⟨opened.grows grows, known⟩, done⟩
  | secondWindow =>
    obtain ⟨current, rest, same, ⟨opened, known⟩, done⟩ := recorded
    exact ⟨current, rest, same, ⟨opened.grows grows, known⟩, done⟩
  | suspended place => cases place <;> exact recorded
  | _ => exact recorded

-- The thread stays where it is, and so do the others.
theorem Active.stays (active : Active inputs process func loc queues) (sched : next.sched = process.sched)
    (buffer : next.schedBuf = process.schedBuf) (exited : next.exited = process.exited)
    (aside : ∀ thread, Aside process next thread)
    (pending : ∀ signal, process.pending.has signal = true → next.pending.has signal = true) :
    Active inputs next func loc queues := by
  refine ⟨buffer.trans active.buffer, sched ▸ active.refines, active.valid, active.running, active.distinct,
    active.created, exited ▸ active.left, active.here.aside (aside func) fun known => known.grows pending,
    ?_, exited ▸ active.gone, exited ▸ active.live, ?_, ?_⟩
  · intro thread inside other
    obtain ⟨place, at_⟩ := active.others thread inside other
    exact ⟨place, at_.suspended (aside thread)⟩
  · intro thread gone
    obtain ⟨created, at_⟩ := active.exited thread (exited ▸ gone)
    exact ⟨created, at_.gone (aside thread)⟩
  · intro thread absent
    rw [(aside thread).output, (aside thread).yields]
    exact active.absent thread absent

-- From one part of `thread_yield` to another, by a change to its record.
theorem Active.onYield (change : Yielding → Yielding) (active : Active inputs process func loc queues)
    (alive : loc ≠ .gone) (alive' : loc' ≠ .gone) (sched : next.sched = process.sched)
    (buffer : next.schedBuf = process.schedBuf) (exited : next.exited = process.exited)
    (heap : next.heap = process.heap) (output : next.output = process.output)
    (reads : next.reads = process.reads)
    (yields : next.yields = Function.update process.yields func (onHead change (process.yields func)))
    (point : loc'.point = loc.point) (place : ∀ place, loc'.place = some place → loc.place = some place)
    (recorded : Recorded (loc'.current next.pending) (onHead change (process.yields func))) :
    Active inputs next func loc' queues := by
  refine active.move alive sched buffer (.inl ⟨exited, alive'⟩) ?_
    (active.here.moved ?_ ?_ ?_ point ?_ ?_)
  · intro thread other
    refine ⟨by rw [heap], congrArg (valuesOf thread) output, by rw [reads], ?_⟩
    rw [yields, Function.update_of_ne other]
  · rw [heap]
  · exact congrArg (valuesOf func) output
  · rw [reads]
  · intro place_ same
    rw [heap]
    exact active.here.environment place_ (place place_ same)
  · rw [yields, Function.update_self]
    exact recorded

theorem setMask_alrm (process : Process) (control : Control) :
    process.setMask alrmMask control =
      if process.pending.tstp then { process with mask := alrmMask, control := control }.deliver .tstp
      else { process with mask := alrmMask, control := control } := by
  simp [Process.setMask, Process.deliverable, alrmMask, SigSet.has]

theorem setMask_tstp (process : Process) (control : Control) :
    process.setMask tstpMask control =
      if process.pending.alrm then { process with mask := tstpMask, control := control }.deliver .alrm
      else { process with mask := tstpMask, control := control } := by
  simp [Process.setMask, Process.deliverable, tstpMask, SigSet.has]

-- `sighandler` takes the running thread out of a window.
theorem Active.caught {signal : Signal} (active : Active inputs process func loc queues)
    (window : process.control.window = some func) (place : loc.place = some .yield)
    (point : loc.point = some .next)
    (opened : Recorded (some fun current => current.Open process.pending ∧
      (current.atStart = baseMask → signal = .tstp)) (process.yields func)) :
    Active inputs (process.deliver signal) func .caught queues := by
  have alive : loc ≠ .gone := by
    rintro rfl
    cases point
  refine active.onYield (fun current => { current with served := current.served ++ [signal] }) alive
    (by simp) rfl rfl rfl rfl rfl rfl ?_ point.symm (fun _ same => place.trans same) ?_
  · simp [Process.deliver, window]
  · obtain ⟨current, rest, same, ⟨opened, first⟩, done⟩ := opened
    rw [same]
    refine ⟨_, rest, rfl, ⟨opened.going, ?_, opened.switches, fun both => ?_⟩, done⟩
    · simp [opened.served]
    · simp [opened.served, first both]

theorem Live.deliver {signal : Signal} (live : Live inputs process func loc queues)
    (deliverable : process.deliverable signal = true) :
    Live inputs (process.deliver signal) func .caught queues := by
  obtain ⟨stands, active, mask, handlers, last⟩ := live
  simp only [Process.deliverable, Bool.and_eq_true, Bool.not_eq_true', mask] at deliverable
  obtain ⟨pending, open_⟩ := deliverable
  generalize control : process.control = here at stands mask open_ last
  -- outside the windows both signals are blocked
  cases stands with
  | firstWindow =>
    cases signal with
    | alrm => cases open_
    | tstp =>
      refine ⟨.handler _, active.caught (by rw [control]; rfl) rfl rfl ?_, ?_, handlers, fun _ => last rfl⟩
      · obtain ⟨current, rest, same, ⟨opened, -⟩, done⟩ := active.here.recorded
        exact ⟨current, rest, same, ⟨opened, fun _ => rfl⟩, done⟩
      · change process.mask.add .tstp = baseMask
        rw [mask]
        rfl
  | secondWindow =>
    cases signal with
    | tstp => cases open_
    | alrm =>
      refine ⟨.handler _, active.caught (by rw [control]; rfl) rfl rfl ?_, ?_, handlers, fun _ => last rfl⟩
      · obtain ⟨current, rest, same, ⟨opened, idle, -⟩, done⟩ := active.here.recorded
        exact ⟨current, rest, same, ⟨opened, fun both => by rw [both] at idle; cases idle⟩, done⟩
      · change process.mask.add .alrm = baseMask
        rw [mask]
        rfl
  | _ => cases signal <;> cases open_

theorem Live.code {point : Point} (live : Live inputs process func (.code point) queues)
    (control : process.control = .code func point) (taken : process.next inputs = some next) :
    ∃ loc, Live inputs next func loc queues := by
  have runs := live.active.runs
  simp only [Process.next, control, runs] at taken
  obtain ⟨act, active, after, mask, handlers⟩ := live.active.code taken
  refine ⟨.ending act, after ▸ .ending act, active, ?_, handlers ▸ live.handlers, fun underway => ?_⟩
  · rw [mask, live.mask, control, after]
    rfl
  · rw [after] at underway
    cases underway

theorem Live.ending {act : Act} (live : Live inputs process func (.ending act) queues)
    (control : process.control = .ending func act) (taken : process.next inputs = some next) :
    ∃ loc, Live inputs next func loc queues := by
  have runs := live.active.runs
  have mask := live.mask
  simp only [Process.next, control, runs, Option.some.injEq] at taken
  rw [control] at mask
  subst taken
  obtain ⟨yields, reads, exits⟩ := live.active.macroStep
  cases act with
  | yield => exact ⟨_, .yielding, (yields rfl).1, mask, live.handlers, fun _ => rfl⟩
  | asyncRead => exact ⟨_, .asyncRead, (reads rfl).1, mask, live.handlers, fun underway => by cases underway⟩
  | exit => exact ⟨_, .exit, (exits rfl).1, mask, live.handlers, fun underway => by cases underway⟩

theorem Live.yielding (live : Live inputs process func .yielding queues)
    (control : process.control = .yielding func) (taken : process.next inputs = some next) :
    ∃ loc, Live inputs next func loc queues := by
  simp only [Process.next, control, Option.some.injEq, setMask_alrm] at taken
  have last := live.last (by rw [control]; rfl)
  have active : Active inputs { process with mask := alrmMask, control := .firstWindow func } func .yielding
      queues := live.active.stays rfl rfl rfl (fun thread => ⟨rfl, rfl, rfl, rfl⟩) fun _ has => has
  obtain ⟨current, rest, same, opened, done⟩ := live.active.here.recorded
  split_ifs at taken with pending <;> subst taken
  · refine ⟨.caught, .handler _, active.caught rfl rfl rfl ?_, rfl, live.handlers, fun _ => last⟩
    exact ⟨current, rest, same, ⟨opened, fun _ => rfl⟩, done⟩
  · refine ⟨.firstWindow, .firstWindow, active.move (by simp) rfl rfl (.inl ⟨rfl, by simp⟩)
      (fun thread _ => ⟨rfl, rfl, rfl, rfl⟩) (active.here.moved rfl rfl rfl rfl active.here.environment ?_),
      rfl, live.handlers, fun _ => last⟩
    refine ⟨current, rest, same, ⟨opened, ?_⟩, done⟩
    -- a pending SIGTSTP would have been delivered
    by_contra waits
    exact pending (opened.pending .tstp (by simpa [SigSet.has] using waits))

theorem Live.firstWindow (live : Live inputs process func .firstWindow queues)
    (control : process.control = .firstWindow func) (taken : process.next inputs = some next) :
    ∃ loc, Live inputs next func loc queues := by
  simp only [Process.next, control, Option.some.injEq, setMask_tstp] at taken
  have last := live.last (by rw [control]; rfl)
  have active : Active inputs { process with mask := tstpMask, control := .secondWindow func } func
      .firstWindow queues := live.active.stays rfl rfl rfl (fun thread => ⟨rfl, rfl, rfl, rfl⟩) fun _ has => has
  obtain ⟨current, rest, same, ⟨opened, idle⟩, done⟩ := live.active.here.recorded
  split_ifs at taken with pending <;> subst taken
  · refine ⟨.caught, .handler _, active.caught rfl rfl rfl ?_, rfl, live.handlers, fun _ => last⟩
    exact ⟨current, rest, same, ⟨opened, fun both => by rw [both] at idle; cases idle⟩, done⟩
  · refine ⟨.secondWindow, .secondWindow, active.move (by simp) rfl rfl (.inl ⟨rfl, by simp⟩)
      (fun thread _ => ⟨rfl, rfl, rfl, rfl⟩) (active.here.moved rfl rfl rfl rfl active.here.environment ?_),
      rfl, live.handlers, fun _ => last⟩
    refine ⟨current, rest, same, ⟨opened, idle, ?_⟩, done⟩
    by_contra waits
    exact pending (opened.pending .alrm (by simpa [SigSet.has] using waits))

-- The end of `thread_yield`, with or without a switch.
theorem Live.finishYield (live : Live inputs process func loc queues) (alive : loc ≠ .gone)
    (point : loc.point = some .next)
    (ended : ∃ current rest, process.yields func = current :: rest ∧
      Yielding.Done { current with finished := true } ∧ ∀ yielding ∈ rest, yielding.Done) :
    Live inputs (process.finishYield func) func (.code .next) queues := by
  rw [Process.finishYield, setMask_base]
  refine ⟨.code .next, ?_, rfl, live.handlers, fun underway => by cases underway⟩
  refine live.active.onYield (fun current => { current with finished := true }) alive (by simp)
    rfl rfl rfl rfl rfl rfl rfl point.symm (fun _ same => by cases same) ?_
  obtain ⟨current, rest, same, last, done⟩ := ended
  rw [same]
  intro yielding member
  rcases List.mem_cons.mp member with rfl | earlier
  · exact last
  · exact done yielding earlier

theorem Yielding.Open.done {pending : SigSet} {current : Yielding} (opened : current.Open pending)
    (tstp : current.atStart.tstp = false) (alrm : current.atStart.alrm = false) :
    Yielding.Done { current with finished := true } := by
  refine ⟨rfl, ?_, ?_, fun signal has => ?_, fun both => ?_⟩
  · simp [opened.switches, opened.served]
  · simp [opened.served]
  · cases signal <;> simp_all [SigSet.has]
  · rw [show current.atStart = baseMask from both] at tstp
    cases tstp

theorem Yielding.Caught.done {current : Yielding} (caught : current.Caught 1) :
    Yielding.Done { current with finished := true } :=
  ⟨rfl, caught.switches.trans caught.served.symm, caught.served.le, fun _ _ => caught.served, caught.both⟩

theorem Live.secondWindow (live : Live inputs process func .secondWindow queues)
    (control : process.control = .secondWindow func) (taken : process.next inputs = some next) :
    ∃ loc, Live inputs next func loc queues := by
  simp only [Process.next, control, Option.some.injEq] at taken
  subst taken
  obtain ⟨current, rest, same, ⟨opened, tstp, alrm⟩, done⟩ := live.active.here.recorded
  exact ⟨_, live.finishYield (by simp) rfl ⟨current, rest, same, opened.done tstp alrm, done⟩⟩

theorem Live.resumed (live : Live inputs process func .resumed queues)
    (control : process.control = .resumed func) (taken : process.next inputs = some next) :
    ∃ loc, Live inputs next func loc queues := by
  simp only [Process.next, control, Option.some.injEq] at taken
  subst taken
  obtain ⟨current, rest, same, caught, done⟩ := live.active.here.recorded
  exact ⟨_, live.finishYield (by simp) rfl ⟨current, rest, same, caught.done, done⟩⟩

theorem Live.handler {signo : Signal} (live : Live inputs process func .caught queues)
    (control : process.control = .handler signo) (taken : process.next inputs = some next) :
    ∃ loc, Live inputs next func loc queues := by
  simp only [Process.next, control, Option.some.injEq, setMask_base] at taken
  have last := live.last (by rw [control]; rfl)
  subst taken
  exact ⟨_, .leaving, live.active.stays rfl rfl rfl (fun thread => ⟨rfl, rfl, rfl, rfl⟩) fun _ has => has,
    rfl, live.handlers, fun _ => last⟩

theorem Live.leaving (live : Live inputs process func .caught queues)
    (control : process.control = .leaving) (taken : process.next inputs = some next) :
    ∃ loc, Live inputs next func loc queues := by
  have mask := live.mask
  simp only [Process.next, control, live.active.buffer, if_true, Option.some.injEq] at taken
  have last := live.last (by rw [control]; rfl)
  rw [control] at mask
  subst taken
  exact ⟨_, .yield, live.active.stays rfl rfl rfl (fun thread => ⟨rfl, rfl, rfl, rfl⟩) fun _ has => has,
    mask, live.handlers, fun _ => last⟩

theorem Live.advances (live : Live inputs process func loc queues) (taken : process.next inputs = some next) :
    ∃ loc, Live inputs next func loc queues := by
  have stands := live.stands
  generalize control : process.control = here at stands
  cases stands with
  | code point => exact live.code control taken
  | ending act => exact live.ending control taken
  | yielding => exact live.yielding control taken
  | firstWindow => exact live.firstWindow control taken
  | secondWindow => exact live.secondWindow control taken
  | resumed => exact live.resumed control taken
  | handler signo => exact live.handler control taken
  | leaving => exact live.leaving control taken
  -- at an entry of the scheduler
  | _ => simp [Process.next, control] at taken

theorem dispatch_runs {state after : Sched Func} {outcome : Outcome Func}
    (ran : dispatch state = some (after, outcome)) :
    ∃ thread, outcome = .dispatch thread ∧ running after = some thread := by
  obtain ⟨thread, runs, same⟩ := Option.bind_eq_some_iff.mp ran
  obtain ⟨rfl, rfl⟩ := Prod.mk.inj (Option.some.inj same)
  exact ⟨thread, rfl, runs⟩

-- The thread that `scheduler` jumps to is `RUNNING` then.
theorem scheduler_runs {fd : Func → Int} {jmpval : Jump} {polled : FdSet} {blocking : Blocking}
    {state after : Sched Func} {thread : Func}
    (ran : scheduler fd jmpval polled blocking state = some (after, .dispatch thread)) :
    running after = some thread := by
  have fromDispatch : ∀ state, dispatch state = some (after, .dispatch thread) →
      running after = some thread := by
    intro state ran
    obtain ⟨_, same, runs⟩ := dispatch_runs ran
    cases same
    exact runs
  obtain ⟨polledState, -, ran⟩ := Option.bind_eq_some_iff.mp ran
  cases jmpval with
  | first => exact fromDispatch _ ran
  | yield =>
    simp only at ran
    split_ifs at ran <;> exact fromDispatch _ ran
  | asyncRead =>
    simp only [Option.bind_eq_bind, Option.bind_eq_some_iff] at ran
    obtain ⟨_, -, _, -, filled, -, ran⟩ := ran
    split_ifs at ran
    · obtain ⟨_, -, ran⟩ := Option.bind_eq_some_iff.mp ran
      exact fromDispatch _ ran
    · exact fromDispatch _ ran
  | exit =>
    simp only [Option.bind_eq_bind, Option.bind_eq_some_iff] at ran
    obtain ⟨filled, -, ran⟩ := ran
    split_ifs at ran
    · cases ran
    · obtain ⟨_, -, ran⟩ := Option.bind_eq_some_iff.mp ran
      exact fromDispatch _ ran
    · exact fromDispatch _ ran

/-- The threads in the queues are suspended, all of them. -/
structure Parked (inputs : Inputs) (process : Process) (threads : List Func) : Prop where
  buffer : process.schedBuf = true
  distinct : threads.Nodup
  created : ∀ thread ∈ threads, thread ∈ createdThreads inputs.args
  left : ∀ thread ∈ createdThreads inputs.args, thread ∈ threads ∨ thread ∈ process.exited
  suspended : ∀ thread ∈ threads, ∃ place, At inputs process thread (.suspended place)
  live : ∀ thread ∈ threads, thread ∉ process.exited
  exited : ∀ thread ∈ process.exited, thread ∈ createdThreads inputs.args ∧ At inputs process thread .gone
  absent : ∀ thread, thread ∉ createdThreads inputs.args →
    printedBy process thread = [] ∧ process.yields thread = []

theorem Active.parked {place : Place} (active : Active inputs process func (.suspended place) queues) :
    Parked inputs process queues.threads := by
  refine ⟨active.buffer, active.distinct, active.created, active.left, ?_, ?_, active.exited, active.absent⟩
  · intro thread inside
    by_cases same : thread = func
    · exact same ▸ ⟨place, active.here⟩
    · exact active.others thread inside same
  · intro thread inside gone
    cases (active.live thread inside gone).2

-- The thread that exits is no longer in the queues.
theorem Active.retired {threads : List Func} (active : Active inputs process func .gone queues)
    (removed : (func :: threads).Perm queues.threads) : Parked inputs process threads := by
  have distinct := removed.nodup_iff.mpr active.distinct
  have member : ∀ thread ∈ threads, thread ∈ queues.threads ∧ thread ≠ func := by
    intro thread inside
    refine ⟨removed.subset (List.mem_cons_of_mem _ inside), ?_⟩
    rintro rfl
    exact (List.nodup_cons.mp distinct).1 inside
  refine ⟨active.buffer, (List.nodup_cons.mp distinct).2,
    fun thread inside => active.created _ (member thread inside).1, ?_,
    fun thread inside => active.others _ (member thread inside).1 (member thread inside).2, ?_,
    active.exited, active.absent⟩
  · intro thread created
    rcases active.left thread created with inside | gone
    · rcases List.mem_cons.mp (removed.mem_iff.mpr inside) with rfl | inside
      · exact .inr (active.gone rfl)
      · exact .inl inside
    · exact .inr gone
  · intro thread inside gone
    exact (member thread inside).2 (active.live thread (member thread inside).1 gone).1

-- `longjmp(RUNNING->environment, 1)`
theorem Parked.resumes {threads : List Func} {after : Sched Func} {thread : Func}
    (parked : Parked inputs process threads) (mask : process.mask = baseMask) (handlers : 2 ≤ process.handlers)
    (refines : Refines after queues) (valid : queues.current < queues.ready.length)
    (same : queues.threads.Perm threads) (runs : running after = some thread) :
    ∃ loc, Live inputs { process with sched := after, control := resume (process.heap thread).environment }
      thread loc queues := by
  rw [running_refines refines valid, Option.some.injEq] at runs
  have inside : ∀ other, other ∈ queues.threads ↔ other ∈ threads := fun other => same.mem_iff
  have member : thread ∈ queues.threads := runs ▸ List.mem_append_left _ (List.getElem_mem _)
  obtain ⟨place, at_⟩ := parked.suspended thread ((inside thread).mp member)
  have active : ∀ loc, loc ≠ .gone → loc.point = some place.point → loc.place = none →
      Recorded (loc.current process.pending) (process.yields thread) →
      Active inputs { process with sched := after, control := resume (process.heap thread).environment }
        thread loc queues := by
    intro loc alive point noPlace recorded
    refine ⟨parked.buffer, refines, valid, runs, same.nodup_iff.mpr parked.distinct,
      fun other created => parked.created other ((inside other).mp created), ?_,
      at_.moved rfl rfl rfl point (fun _ same => by rw [noPlace] at same; cases same) recorded,
      fun other created _ => ?_, fun gone => absurd gone alive,
      fun other waits gone => absurd gone (parked.live other ((inside other).mp waits)), ?_, parked.absent⟩
    · intro other created
      exact (parked.left other created).imp_left (inside other).mpr
    · obtain ⟨place, at_⟩ := parked.suspended other ((inside other).mp created)
      exact ⟨place, at_.suspended ⟨rfl, rfl, rfl, rfl⟩⟩
    · intro other gone
      obtain ⟨created, at_⟩ := parked.exited other gone
      exact ⟨created, at_.gone ⟨rfl, rfl, rfl, rfl⟩⟩
  have environment := at_.environment place rfl
  cases place with
  | setup =>
    refine ⟨.code .start, ?_, active _ (by simp) rfl rfl at_.recorded, ?_, handlers, ?_⟩
    all_goals simp only [environment, resume]
    · exact .code _
    · exact mask
    · exact fun underway => by cases underway
  | yield =>
    refine ⟨.resumed, ?_, active _ (by simp) rfl rfl at_.recorded, ?_, handlers, ?_⟩
    all_goals simp only [environment, resume]
    · exact .resumed
    · exact mask
    · exact fun underway => by cases underway
  | asyncRead =>
    refine ⟨.code .read, ?_, active _ (by simp) rfl rfl at_.recorded, ?_, handlers, ?_⟩
    all_goals simp only [environment, resume]
    · exact .code _
    · exact mask
    · exact fun underway => by cases underway

theorem Parked.leaves {threads : List Func} {jmpval : Jump} {polled : FdSet} {blocking : Blocking}
    {state : Sched Func} {queues : Queues Func}
    (parked : Parked inputs process threads) (mask : process.mask = baseMask)
    (handlers : 2 ≤ process.handlers) (same : queues.threads.Perm threads)
    (dispatches : Dispatches (scheduler inputs.fd jmpval polled blocking state) queues) :
    Phase inputs (process.leave (scheduler inputs.fd jmpval polled blocking state)) := by
  obtain ⟨after, queues', thread, ran, refines, valid, kept⟩ := dispatches
  rw [ran]
  obtain ⟨loc, live⟩ := parked.resumes mask handlers refines valid (kept.trans same) (scheduler_runs ran)
  exact .live live

theorem Live.scheduleFirst (polled : FdSet) (blocking : Blocking)
    (live : Live inputs process func (.suspended .setup) queues) (mask : process.mask = baseMask) :
    Phase inputs (process.leave (scheduler inputs.fd .first polled blocking process.sched)) :=
  live.active.parked.leaves mask live.handlers (List.Perm.refl _)
    (scheduler_first inputs.fd polled blocking live.active.refines live.active.valid)

theorem Live.scheduleYield (polled : FdSet) (blocking : Blocking)
    (live : Live inputs process func .caught queues) (mask : process.mask = baseMask) :
    Phase inputs ((process.countSwitch .yield).leave (scheduler inputs.fd .yield polled blocking process.sched)) := by
  have runs := live.active.runs
  have active : Active inputs (process.countSwitch .yield) func (.suspended .yield) queues := by
    simp only [Process.countSwitch, runs]
    refine live.active.onYield (fun current => { current with switches := current.switches + 1 }) (by simp)
      (by simp) rfl rfl rfl rfl rfl rfl rfl rfl (fun _ same => same) ?_
    obtain ⟨current, rest, same, caught, done⟩ := live.active.here.recorded
    rw [same]
    refine ⟨_, rest, rfl, ⟨caught.going, caught.served, ?_, caught.both⟩, done⟩
    exact congrArg (· + 1) caught.switches
  have kept : (process.countSwitch .yield).mask = process.mask ∧
      (process.countSwitch .yield).handlers = process.handlers := by
    simp [Process.countSwitch, runs, Process.onYield]
  exact active.parked.leaves (kept.1.trans mask) (kept.2 ▸ live.handlers) (List.Perm.refl _)
    (scheduler_yield inputs.fd polled blocking live.active.refines live.active.valid)

theorem Live.scheduleAsyncRead (polled : FdSet) (blocking : Blocking)
    (live : Live inputs process func (.suspended .asyncRead) queues) (mask : process.mask = baseMask) :
    Phase inputs (process.leave (scheduler inputs.fd .asyncRead polled blocking process.sched)) :=
  live.active.parked.leaves mask live.handlers (List.Perm.refl _)
    (scheduler_asyncRead inputs.fd polled blocking live.active.refines live.active.valid)

theorem Live.scheduleExit (polled : FdSet) (blocking : Blocking)
    (live : Live inputs process func .gone queues) (mask : process.mask = baseMask) :
    Phase inputs (process.leave (scheduler inputs.fd .exit polled blocking process.sched)) := by
  obtain ⟨rest, removed, last, others⟩ :=
    scheduler_exit inputs.fd polled blocking live.active.refines live.active.valid
  rw [live.active.running] at removed
  have parked := live.active.retired removed
  by_cases empty : rest.threads = []
  · obtain ⟨after, ran, -⟩ := last empty
    rw [ran]
    rw [empty] at parked
    refine .ended rfl ⟨fun thread => ⟨fun gone => (parked.exited thread gone).1, fun created => ?_⟩, ?_,
      parked.absent⟩
    · exact (parked.left thread created).resolve_left (by simp)
    · exact fun thread gone => (parked.exited thread gone).2.gone ⟨rfl, rfl, rfl, rfl⟩
  · exact parked.leaves mask live.handlers (List.Perm.refl _) (others empty)

theorem Live.schedules {polled : FdSet} {blocking : Blocking} (live : Live inputs process func loc queues)
    (taken : process.schedule inputs polled blocking = some next) : Phase inputs next := by
  have stands := live.stands
  have mask := live.mask
  generalize control : process.control = here at stands mask
  simp only [Process.schedule, control] at taken
  cases stands <;> cases taken
  case first => exact live.scheduleFirst polled blocking mask
  case yield => exact live.scheduleYield polled blocking mask
  case asyncRead => exact live.scheduleAsyncRead polled blocking mask
  case exit => exact live.scheduleExit polled blocking mask

theorem arrive_installed {signal : Signal} (handlers : 2 ≤ process.handlers)
    (taken : process.arrive signal = some next) :
    next = { process with pending := process.pending.add signal } := by
  have installed : process.installed signal = true := by
    cases signal <;> simp [Process.installed] <;> omega
  simp only [Process.arrive, installed, if_true] at taken
  split_ifs at taken
  exact (Option.some.inj taken).symm

theorem step_deliver {signal : Signal} (taken : process.step inputs (.deliver signal) = some next) :
    process.control.over = false ∧ process.deliverable signal = true ∧ next = process.deliver signal := by
  simp only [Process.step] at taken
  split_ifs at taken with allowed
  simp only [Bool.and_eq_true, Bool.not_eq_true'] at allowed
  exact ⟨allowed.1.1, allowed.2, (Option.some.inj taken).symm⟩

theorem not_deliverable {signal : Signal} (mask : process.mask = baseMask) :
    process.deliverable signal = false := by
  cases signal <;> simp [Process.deliverable, mask, baseMask, SigSet.has]

theorem Live.step {label : Label} (live : Live inputs process func loc queues)
    (taken : process.step inputs label = some next) : Phase inputs next := by
  cases label with
  | arrive signal =>
    obtain rfl := arrive_installed live.handlers taken
    exact .live ⟨live.stands, live.active.stays rfl rfl rfl (fun thread => ⟨rfl, rfl, rfl, rfl⟩)
      fun _ has => SigSet.has_add has, live.mask, live.handlers, live.last⟩
  | deliver signal =>
    obtain ⟨-, deliverable, rfl⟩ := step_deliver taken
    exact .live (live.deliver deliverable)
  | next =>
    obtain ⟨loc, live⟩ := live.advances taken
    exact .live live
  | schedule polled blocking => exact live.schedules taken

theorem createdThreads_nodup (args : Func → Int) : (createdThreads args).Nodup :=
  List.Nodup.filter _ (by decide)

theorem initThreads_created (args : Func → Int) :
    ∃ sched, initThreads (createdThreads args) = some sched ∧
      Refines { sched with rqCurrent := 0 } ⟨createdThreads args, 0, []⟩ := by
  have empty : Refines (T := Func) emptySched ⟨[], 0, []⟩ :=
    ⟨⟨rfl, fun _ inside => absurd inside (Nat.not_lt_zero _)⟩,
      ⟨rfl, fun _ inside => absurd inside (Nat.not_lt_zero _)⟩, rfl, by simp [Queues.threads]⟩
  have fits : (createdThreads args).length ≤ threadMax :=
    (List.length_filter_le _ _).trans (by decide)
  obtain ⟨sched, created, refines⟩ :=
    initThreads_refines [] (createdThreads args) emptySched empty (by simpa using fits)
  exact ⟨sched, created, refines.ready, refines.waiting, rfl, refines.fits⟩

-- `init_threads` and the first lines of `scheduler`.
theorem Phase.setupStep (mask : process.mask = baseMask) (handlers : 2 ≤ process.handlers)
    (fresh : Fresh process) : Phase inputs (process.createThreads inputs) := by
  obtain ⟨sched, created, refines⟩ := initThreads_created inputs.args
  simp only [Process.createThreads, created]
  set after : Process := { process with
    sched := { sched with rqCurrent := 0 }
    heap := fun func => ⟨setupVars func (inputs.args func), (func, .setup)⟩
    schedBuf := true
    control := .entry .first } with named
  have printed : ∀ func, printedBy after func = [] := by
    intro func
    simp [printedBy, valuesOf, named, fresh.output]
  have at_ : ∀ func, At inputs after func (.suspended .setup) := by
    intro func
    refine ⟨⟨0, ?_⟩, fun place same => by cases same; rfl, fun yielding member => ?_⟩
    · rw [printed, show after.reads func = 0 from fresh.reads func]
      rfl
    · rw [show after.yields func = [] from fresh.yields func] at member
      cases member
  by_cases some_ : createdThreads inputs.args = []
  · rw [some_] at created
    cases created
    exact .empty rfl rfl mask handlers ⟨fresh.output, fresh.exited, fresh.reads, fresh.yields, fresh.last⟩
  · have valid := List.length_pos_iff.mpr some_
    have gone : ∀ thread, thread ∉ after.exited := by
      intro thread member
      rw [show after.exited = [] from fresh.exited] at member
      cases member
    refine .live ⟨.first, ⟨rfl, refines, valid, rfl, ?_, ?_, ?_, at_ _, fun thread _ _ => ⟨_, at_ thread⟩,
      (fun gone => by cases gone), fun thread _ member => absurd member (gone thread),
      fun thread member => absurd member (gone thread),
      fun thread _ => ⟨printed thread, fresh.yields thread⟩⟩, mask, handlers, fun underway => by cases underway⟩
    · simpa [Queues.threads] using createdThreads_nodup inputs.args
    · simp [Queues.threads]
    · exact fun thread created => .inl (by simpa [Queues.threads] using created)

theorem scheduler_empty (fd : Func → Int) (polled : FdSet) (blocking : Blocking) :
    scheduler fd .first polled blocking emptySched = none := by
  simp [scheduler, poll, waitingSet, wake, wakeLoop, dispatch, running, deref, load, emptySched, threadMax]

theorem Fresh.frame (fresh : Fresh process) (output : next.output = process.output)
    (exited : next.exited = process.exited) (reads : next.reads = process.reads)
    (yields : next.yields = process.yields) (last : next.last = process.last) : Fresh next :=
  ⟨output.trans fresh.output, exited.trans fresh.exited, reads ▸ fresh.reads, yields ▸ fresh.yields,
    last.trans fresh.last⟩

-- A signal arrives before the threads start.
theorem Fresh.arrive {signal : Signal} (fresh : Fresh process) (taken : process.arrive signal = some next) :
    Fresh next ∧ (next.control = .dead ∨ next.control = process.control ∧ next.mask = process.mask ∧
      next.schedBuf = process.schedBuf ∧ next.deliveries = process.deliveries) := by
  simp only [Process.arrive] at taken
  split_ifs at taken
  · cases taken
    exact ⟨fresh.frame rfl rfl rfl rfl rfl, .inr ⟨rfl, rfl, rfl, rfl⟩⟩
  · cases signal <;> cases taken
    · exact ⟨fresh, .inr ⟨rfl, rfl, rfl, rfl⟩⟩
    · exact ⟨fresh.frame rfl rfl rfl rfl rfl, .inl rfl⟩

theorem Fresh.deliver {signal : Signal} (fresh : Fresh process) (window : process.control.window = none) :
    Fresh (process.deliver signal) := by
  refine fresh.frame rfl rfl rfl ?_ rfl
  simp [Process.deliver, window]

theorem boot_step {label : Label} (control : process.control = .boot) (buffer : process.schedBuf = false)
    (fresh : Fresh process) (taken : process.step inputs label = some next) : Phase inputs next := by
  cases label with
  | arrive signal =>
    obtain ⟨fresh, dead | ⟨same, -, kept, -⟩⟩ := fresh.arrive taken
    · exact .dead dead fresh
    · exact .boot (same.trans control) (kept.trans buffer) fresh
  | deliver signal =>
    obtain ⟨-, -, rfl⟩ := step_deliver taken
    refine .stray (.inl ⟨signal, rfl⟩) buffer (fresh.deliver (by rw [control]; rfl)) ⟨signal, ?_⟩
    simp [Process.deliver, control]
  | next =>
    simp only [Process.step, Process.next, control] at taken
    split_ifs at taken with more <;> cases taken
    · exact .boot rfl buffer (fresh.frame rfl rfl rfl rfl rfl)
    · rw [setMask_base]
      exact .setup rfl rfl (Nat.le_of_not_lt more) (fresh.frame rfl rfl rfl rfl rfl)
  | schedule polled blocking => simp [Process.step, Process.schedule, control] at taken

-- `sighandler` before the first call of `scheduler`: its `longjmp` finds no `sched_buf`.
theorem stray_step {label : Label} {origin : Signal}
    (control : (∃ signo, process.control = .handler signo) ∨ process.control = .leaving)
    (buffer : process.schedBuf = false) (fresh : Fresh process)
    (boot : (origin, Control.boot) ∈ process.deliveries) (taken : process.step inputs label = some next) :
    Phase inputs next := by
  cases label with
  | arrive signal =>
    obtain ⟨fresh, dead | ⟨same, -, kept, told⟩⟩ := fresh.arrive taken
    · exact .dead dead fresh
    · exact .stray (by rw [same]; exact control) (kept.trans buffer) fresh ⟨origin, told ▸ boot⟩
  | deliver signal =>
    obtain ⟨-, -, rfl⟩ := step_deliver taken
    refine .stray (.inl ⟨signal, rfl⟩) buffer (fresh.deliver ?_) ⟨origin, List.mem_append_left _ boot⟩
    rcases control with ⟨signo, control⟩ | control <;> rw [control] <;> rfl
  | next =>
    rcases control with ⟨signo, control⟩ | control
    · simp only [Process.step, Process.next, control, setMask_base] at taken
      cases taken
      exact .stray (.inr rfl) buffer (fresh.frame rfl rfl rfl rfl rfl) ⟨origin, boot⟩
    · simp only [Process.step, Process.next, control, buffer] at taken
      cases taken
      exact .dead rfl (fresh.frame rfl rfl rfl rfl rfl)
  | schedule polled blocking =>
    rcases control with ⟨signo, control⟩ | control <;>
      simp [Process.step, Process.schedule, control] at taken

-- With both signals blocked and their handlers installed, a step is no delivery.
theorem blocked_step {label : Label} (mask : process.mask = baseMask) (handlers : 2 ≤ process.handlers)
    (taken : process.step inputs label = some next) :
    (∃ signal, next = { process with pending := process.pending.add signal }) ∨
      process.next inputs = some next ∨
      ∃ polled blocking, process.schedule inputs polled blocking = some next := by
  cases label with
  | arrive signal => exact .inl ⟨signal, arrive_installed handlers taken⟩
  | deliver signal =>
    obtain ⟨-, deliverable, -⟩ := step_deliver taken
    simp [not_deliverable mask] at deliverable
  | next => exact .inr (.inl taken)
  | schedule polled blocking => exact .inr (.inr ⟨polled, blocking, taken⟩)

theorem over_step {label : Label} (control : process.control.over = true) :
    process.step inputs label = none := by
  cases label with
  | arrive signal => simp [Process.step, Process.arrive, control]
  | deliver signal => simp [Process.step, control]
  | next =>
    rcases here : process.control <;> simp [Process.step, Process.next, here]
    all_goals simp [here, Control.over] at control
  | schedule polled blocking =>
    rcases here : process.control <;> simp [Process.step, Process.schedule, here]
    all_goals simp [here, Control.over] at control

theorem Phase.step {label : Label} (phase : Phase inputs process)
    (taken : process.step inputs label = some next) : Phase inputs next := by
  cases phase with
  | boot control buffer fresh => exact boot_step control buffer fresh taken
  | stray control buffer fresh boot =>
    obtain ⟨origin, boot⟩ := boot
    exact stray_step control buffer fresh boot taken
  | setup control mask handlers fresh =>
    obtain ⟨signal, rfl⟩ | taken | ⟨polled, blocking, taken⟩ := blocked_step mask handlers taken
    · exact .setup control mask handlers (fresh.frame rfl rfl rfl rfl rfl)
    · simp only [Process.next, control, Option.some.injEq] at taken
      exact taken ▸ Phase.setupStep mask handlers fresh
    · simp [Process.schedule, control] at taken
  | empty control sched mask handlers fresh =>
    obtain ⟨signal, rfl⟩ | taken | ⟨polled, blocking, taken⟩ := blocked_step mask handlers taken
    · exact .empty control sched mask handlers (fresh.frame rfl rfl rfl rfl rfl)
    · simp [Process.next, control] at taken
    · simp only [Process.schedule, control, sched, scheduler_empty, Option.some.injEq] at taken
      subst taken
      exact .dead rfl (fresh.frame rfl rfl rfl rfl rfl)
  | live live => exact live.step taken
  | ended control _ =>
    rw [over_step (by rw [control]; rfl)] at taken
    cases taken
  | dead control _ =>
    rw [over_step (by rw [control]; rfl)] at taken
    cases taken

theorem Phase.stage (phase : Phase inputs process) :
    Fresh process ∨ (∃ func loc queues, Live inputs process func loc queues) ∨
      process.control = .returned ∧ Ended inputs process := by
  cases phase with
  | boot _ _ fresh => exact .inl fresh
  | stray _ _ fresh _ => exact .inl fresh
  | setup _ _ _ fresh => exact .inl fresh
  | empty _ _ _ _ fresh => exact .inl fresh
  | live live => exact .inr (.inl ⟨_, _, _, live⟩)
  | ended control ended => exact .inr (.inr ⟨control, ended⟩)
  | dead _ fresh => exact .inl fresh

-- Where the process may be before a thread has run.
def Control.early : Control → Bool
  | .boot => true
  | .setup => true
  | .handler _ => true
  | .leaving => true
  | .entry .first => true
  | .dead => true
  | _ => false

theorem Phase.cases_early (phase : Phase inputs process) :
    process.control.early = true ∨ (∃ func loc queues, Live inputs process func loc queues) ∨
      process.control = .returned ∧ Ended inputs process := by
  cases phase with
  | boot control => exact .inl (by rw [control]; rfl)
  | stray control =>
    rcases control with ⟨_, control⟩ | control
    · exact .inl (by rw [control]; rfl)
    · exact .inl (by rw [control]; rfl)
  | setup control => exact .inl (by rw [control]; rfl)
  | empty control => exact .inl (by rw [control]; rfl)
  | live live => exact .inr (.inl ⟨_, _, _, live⟩)
  | ended control ended => exact .inr (.inr ⟨control, ended⟩)
  | dead control => exact .inl (by rw [control]; rfl)

theorem Phase.begin (inputs : Inputs) (memory : Func → Tcb) : Phase inputs (Process.begin memory) :=
  .boot rfl rfl ⟨rfl, rfl, fun _ => rfl, fun _ => rfl, rfl⟩

theorem Phase.run {memory : Func → Tcb} {labels : List Label}
    (ran : run (Process.step inputs) (Process.begin memory) labels = some process) : Phase inputs process :=
  run_invariant (Process.step inputs) (Phase inputs)
    (fun _ _ _ phase taken => phase.step taken) _ _ labels (Phase.begin inputs memory) ran

end

end SPHomework.Threads
