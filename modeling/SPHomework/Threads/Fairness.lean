import SPHomework.Threads.Termination
import SPHomework.Threads.Turns

set_option autoImplicit false

/-!
# A thread comes to its turn

While signals keep coming, each entry of the scheduler brings the other threads
closer to their turn. So a thread that exits by itself can exit in every run,
whatever the other threads do.
-/

namespace SPHomework.Threads

open Lib

namespace Queues

variable {T : Type} [DecidableEq T]

/-- How far a thread is from its turn: behind the others if it runs or waits, and in the ready queue by the
length of the queue and the slots up to its own. -/
def rank (thread : T) (queues : Queues T) : Nat :=
  if queues.running = some thread then 2000
  else if thread ∈ queues.waiting then 1000
  else 17 * queues.ready.length +
    (queues.ready.idxOf thread + queues.ready.length - queues.current) % queues.ready.length

omit [DecidableEq T] in
theorem Sound.ready {queues : Queues T} (sound : queues.Sound) : queues.ready.Nodup :=
  (List.nodup_append.mp sound.distinct).1

omit [DecidableEq T] in
theorem Sound.apart {queues : Queues T} (sound : queues.Sound) {thread : T} (ready : thread ∈ queues.ready) :
    thread ∉ queues.waiting :=
  fun waits => (List.nodup_append.mp sound.distinct).2.2 thread ready thread waits rfl

theorem Sound.rank_ready {queues : Queues T} (sound : queues.Sound) {thread : T} {slot : Nat}
    (here : queues.ready[slot]? = some thread) (waits : queues.running ≠ some thread) :
    queues.rank thread = 17 * queues.ready.length +
      (slot + queues.ready.length - queues.current) % queues.ready.length := by
  obtain ⟨inside, same⟩ := List.getElem?_eq_some_iff.mp here
  rw [rank, if_neg waits, if_neg (sound.apart (List.mem_of_getElem? here)), ← same, sound.ready.idxOf_getElem]

theorem Sound.rank_most {queues : Queues T} (sound : queues.Sound) {thread : T}
    (idle : queues.running ≠ some thread) (few : queues.ready.length ≤ threadMax) : queues.rank thread ≤ 1000 := by
  have valid := sound.valid
  have rest := Nat.mod_lt (queues.ready.idxOf thread + queues.ready.length - queues.current) (y := queues.ready.length)
    (by omega)
  rw [threadMax] at few
  rw [rank, if_neg idle]
  split_ifs <;> omega

theorem Sound.rank_less {queues : Queues T} (sound : queues.Sound) {thread : T} (ready : thread ∈ queues.ready)
    (idle : queues.running ≠ some thread) : queues.rank thread < 17 * queues.ready.length + queues.ready.length := by
  obtain ⟨slot, here⟩ := List.mem_iff_getElem?.mp ready
  rw [sound.rank_ready here idle]
  have rest := Nat.mod_lt (slot + queues.ready.length - queues.current) (List.length_pos_of_mem ready)
  omega

theorem slots_ahead {slot current length : Nat} (inside : slot < length) (valid : current < length) :
    (slot + length - current) % length = if current ≤ slot then slot - current else slot + length - current := by
  split_ifs with behind
  · rw [show slot + length - current = slot - current + length by omega, Nat.add_mod_right,
      Nat.mod_eq_of_lt (by omega)]
  · exact Nat.mod_eq_of_lt (by omega)

omit [DecidableEq T] in
theorem retire_mem (queues : Queues T) (valid : queues.current < queues.ready.length) {thread : T}
    (ready : thread ∈ queues.ready) (idle : queues.running ≠ some thread) : thread ∈ queues.retire.ready := by
  rcases List.mem_cons.mp ((queues.retire_ready valid).mem_iff.mpr ready) with same | kept
  · rw [running, List.getElem?_eq_getElem valid, same] at idle
    exact absurd rfl idle
  · exact kept

omit [DecidableEq T] in
theorem wake_running (up : T → Bool) {queues : Queues T} (valid : queues.current < queues.ready.length) :
    (queues.wake up).running = queues.running := by
  rw [running, running, List.getElem?_eq_getElem valid]
  exact queues.wake_get up (List.getElem?_eq_getElem valid)

-- Another thread has left the ready queue.
omit [DecidableEq T] in
theorem Resumes.others {left next : Queues T} (resumes : left.Resumes next) {thread : T}
    (ready : thread ∈ left.ready) : next = left := by
  cases resumes with
  | ready => rfl
  | woken up empty =>
    rw [empty] at ready
    cases ready

omit [DecidableEq T] in
/-- A thread that is ready or woken stays in the ready queue when another one enters the scheduler. -/
theorem Serves.mem {before after : Queues T} {up : T → Bool} {jmpval : Jump} (serves : before.Serves up jmpval after)
    (valid : before.current < before.ready.length) {thread : T} (ready : thread ∈ (before.wake up).ready)
    (idle : before.running ≠ some thread) : thread ∈ after.ready := by
  have stays := (before.wake up).retire_mem (before.wake_valid up valid) ready
    (by rw [wake_running up valid]; exact idle)
  cases serves with
  | first => exact ready
  | yield => exact ready
  | asyncRead other here resumes =>
    have kept : thread ∈ ((before.wake up).suspend other).retire.ready := stays
    rw [resumes.others kept]
    exact kept
  | exit resumes => exact resumes.others stays ▸ stays

/-- Each entry by another thread brings a thread closer to its turn, if it is woken when it waits, and nobody
else is woken when it is ready. Its own entry puts it behind the others. -/
theorem Serves.rank {before after : Queues T} {up : T → Bool} {jmpval : Jump} {thread : T}
    (serves : before.Serves up jmpval after) (again : jmpval ≠ .first) (sound : before.Sound) (sound' : after.Sound)
    (few : after.ready.length ≤ threadMax) (present : thread ∈ before.threads)
    (woken : thread ∈ before.waiting → up thread = true) (calm : thread ∈ before.ready → before.wake up = before)
    (unserved : after.running ≠ some thread) : after.rank thread < before.rank thread := by
  by_cases runs : before.running = some thread
  · have most := sound'.rank_most unserved few
    rw [Queues.rank.eq_def thread before, if_pos runs]
    omega
  have member : thread ∈ (before.wake up).ready := by
    rcases List.mem_append.mp present with ready | waits
    · exact List.mem_append_left _ ready
    · exact List.mem_append_right _ (List.mem_filter.mpr ⟨waits, woken waits⟩)
  have ready' := serves.mem sound.valid member runs
  have less := sound'.rank_less ready' unserved
  rcases List.mem_append.mp present with ready | waits
  · obtain ⟨slot, here⟩ := List.mem_iff_getElem?.mp ready
    have valid := sound.valid
    have inside := (List.getElem?_eq_some_iff.mp here).1
    have leaves : before.retire.ready.length + 1 = before.ready.length := before.retire_length valid
    have kept := before.retire_mem valid ready runs
    have mine := sound.rank_ready here runs
    rw [threadMax] at few
    cases serves with
    | first => exact absurd rfl again
    | yield =>
      rw [calm ready] at sound' unserved ⊢
      have here' : before.advance.ready[slot]? = some thread := here
      have apart : slot ≠ before.current := by
        rintro rfl
        exact runs here
      rw [sound'.rank_ready here' unserved, mine, slots_ahead inside valid]
      change 17 * before.ready.length + (slot + before.ready.length - before.advance.current) % before.ready.length < _
      rw [slots_ahead inside sound'.valid]
      simp only [advance]
      split_ifs <;> omega
    | asyncRead other running resumes =>
      rw [calm ready] at resumes
      have stays : thread ∈ (before.suspend other).retire.ready := kept
      obtain rfl := resumes.others stays
      have length : (before.suspend other).retire.ready.length = before.retire.ready.length := rfl
      omega
    | exit resumes =>
      rw [calm ready] at resumes
      obtain rfl := resumes.others kept
      omega
  · have apart : thread ∈ before.waiting := waits
    rw [Queues.rank.eq_def thread before, if_neg runs, if_pos apart]
    rw [threadMax] at few
    omega

end Queues

section

variable {inputs : Inputs} {process next : Process} {func current : Func} {loc : Loc} {queues : Queues Func}

/-- How a thread comes to be ready after an entry: it was and has not left, it waited and the poll has found it,
or the `select` without a timeout has. -/
inductive Readied (inputs : Inputs) (process : Process) (current : Func) (queues : Queues Func) (jmpval : Jump)
    (polled : FdSet) (blocking : Blocking) (thread : Func) : Prop
  | before (ready : thread ∈ queues.ready) (stays : jmpval = .asyncRead → thread ≠ current)
  | polled (waits : thread ∈ queues.waiting) (found : polled (inputs.fd thread) = true)
  | blocked {set : FdSet} (asked : blockedOn inputs.fd jmpval polled process.sched = some set)
    (found : blocking.answer set (inputs.fd thread) = true)

theorem Readied.woken {jmpval : Jump} {polled : FdSet} {blocking : Blocking} {thread : Func}
    (ready : thread ∈ (queues.wake fun thread => polled (inputs.fd thread)).ready)
    (stays : jmpval = .asyncRead → thread ≠ current) :
    Readied inputs process current queues jmpval polled blocking thread := by
  rcases List.mem_append.mp ready with before | added
  · exact .before before stays
  · exact .polled (List.mem_filter.mp added).1 (List.mem_filter.mp added).2

theorem Live.sound (live : Live inputs process current loc queues) : queues.Sound :=
  ⟨live.active.valid, live.active.distinct⟩

theorem Live.ran (live : Live inputs process current loc queues) :
    queues.running = some current := by
  rw [Queues.running, List.getElem?_eq_getElem live.active.valid, live.active.running]

-- After a jump the thread runs.
theorem Phase.dispatched {sched : Sched Func} {thread : Func} {yields : Func → List Yielding}
    (phase : Phase inputs { process with
      sched := sched
      yields := yields
      control := resume (process.heap thread).environment })
    (runs : running sched = some thread) :
    ∃ loc' queues', Live inputs { process with
      sched := sched
      yields := yields
      control := resume (process.heap thread).environment } thread loc' queues' := by
  obtain ⟨-, -, -, going⟩ := resume_point (process.heap thread).environment
  rcases phase.cases_early with early | ⟨other, loc', queues', live'⟩ | ⟨returned, -⟩
  · have late : ∀ environment, (resume environment).early = false := by
      rintro ⟨func, place⟩
      cases place <;> rfl
    rw [show Control.early _ = false from late _] at early
    cases early
  · obtain rfl : other = thread := Option.some.inj (live'.active.runs.symm.trans runs)
    exact ⟨loc', queues', live'⟩
  · rw [show resume (process.heap thread).environment = .returned from returned] at going
    cases going

/-- An entry of the scheduler from the code of a thread, with what it does to the queues. -/
theorem Live.serves {polled : FdSet} {blocking : Blocking} (live : Live inputs process current loc queues)
    (taken : process.schedule inputs polled blocking = some next) :
    ∃ jmpval, process.control = .entry jmpval ∧ (next.control = .returned ∧ Ended inputs next ∨
      ∃ thread loc' queues', Live inputs next thread loc' queues' ∧
        queues.Serves (fun thread => polled (inputs.fd thread)) jmpval queues' ∧
        (∀ thread ∈ queues'.ready, Readied inputs process current queues jmpval polled blocking thread) ∧
        next.control = resume (process.heap thread).environment ∧ next.exited = process.exited) := by
  have phase := live.schedules taken
  obtain ⟨jmpval, control, returned | ⟨thread, sched, yields, ran, rfl⟩⟩ := live.entered taken
  · refine ⟨jmpval, control, .inl ?_⟩
    rcases phase.cases_early with early | ⟨_, _, _, live'⟩ | ended
    · rw [returned] at early
      cases early
    · exact absurd returned live'.unreturned
    · exact ended
  · obtain ⟨loc', queues', live'⟩ := phase.dispatched (scheduler_runs ran)
    obtain ⟨serves, readied⟩ :=
      scheduler_serves inputs.fd polled blocking live.active.refines live.sound ran live'.active.refines
    refine ⟨jmpval, control, .inr ⟨thread, loc', queues', live', serves, fun other ready => ?_, rfl, rfl⟩⟩
    rcases readied other ready with ⟨woken, stays⟩ | ⟨set, asked, found⟩
    · exact .woken woken fun leaves same => stays leaves (same ▸ live.ran)
    · exact .blocked asked found

/-- Before the threads are there, while they run, and after. Only `max_subarray` is ever in the waiting queue,
before a read. -/
inductive Begun (inputs : Inputs) (process : Process) : Prop
  | before (idle : process.schedBuf = false ∨ createdThreads inputs.args = [])
  | live {func : Func} {loc : Loc} {queues : Queues Func} (live : Live inputs process func loc queues)
    (reader : ∀ thread ∈ queues.waiting, thread = .maxSubarray ∧ pointAt process thread = some .read)
  | ended (control : process.control = .returned) (ended : Ended inputs process)

theorem Live.idle (live : Live inputs process current loc queues) :
    ¬ (process.schedBuf = false ∨ createdThreads inputs.args = []) := by
  rintro (unset | nobody)
  · exact Bool.false_ne_true (unset.symm.trans live.active.buffer)
  · exact List.ne_nil_of_mem live.member nobody

theorem Begun.reader (begun : Begun inputs process) (live : Live inputs process current loc queues)
    (thread : Func) (waits : thread ∈ queues.waiting) :
    thread = .maxSubarray ∧ pointAt process thread = some .read := by
  cases begun with
  | before idle => exact absurd idle live.idle
  | live other reader =>
    rw [live.active.refines.unique other.active.refines] at waits
    exact reader thread waits
  | ended control => exact absurd control live.unreturned

theorem setMask_frame (process : Process) (mask : SigSet) (control : Control) :
    (process.setMask mask control).schedBuf = process.schedBuf ∧ (process.setMask mask control).reads = process.reads := by
  unfold Process.setMask
  dsimp only
  split_ifs <;> exact ⟨rfl, rfl⟩

theorem runCode_frame {point : Point} {thread : Func}
    (taken : process.runCode inputs func point thread = some next) :
    next.schedBuf = process.schedBuf ∧ (point ≠ .read → next.reads = process.reads) := by
  obtain ⟨⟨vars, value, act⟩, -, rfl⟩ := Option.map_eq_some_iff.mp taken
  exact ⟨rfl, fun other => if_neg other⟩

/-- Only `init_threads` and the read of a thread change these. -/
theorem next_frame (taken : process.next inputs = some next) :
    (process.control ≠ .setup → next.schedBuf = process.schedBuf) ∧
      ((∀ func, process.control ≠ .code func .read) → next.reads = process.reads) := by
  have both : next.schedBuf = process.schedBuf ∧ next.reads = process.reads →
      (process.control ≠ .setup → next.schedBuf = process.schedBuf) ∧
        ((∀ func, process.control ≠ .code func .read) → next.reads = process.reads) :=
    fun same => ⟨fun _ => same.1, fun _ => same.2⟩
  unfold Process.next at taken
  split at taken
  case h_1 =>
    split_ifs at taken <;> obtain rfl := Option.some.inj taken
    · exact both ⟨rfl, rfl⟩
    · exact both (setMask_frame ..)
  case h_2 control =>
    obtain rfl := Option.some.inj taken
    refine ⟨fun apart => absurd control apart, fun _ => ?_⟩
    unfold Process.createThreads
    split <;> rfl
  case h_3 control =>
    split at taken
    · cases taken
      exact both ⟨rfl, rfl⟩
    · obtain ⟨buffer, reads⟩ := runCode_frame taken
      refine ⟨fun _ => buffer, fun apart => reads ?_⟩
      rintro rfl
      exact apart _ control
  case h_4 =>
    split at taken
    · cases taken
      exact both ⟨rfl, rfl⟩
    · obtain rfl := Option.some.inj taken
      rename_i act _ _ _ _
      cases act <;> exact both ⟨rfl, rfl⟩
  case h_10 => split_ifs at taken <;> obtain rfl := Option.some.inj taken <;> exact both ⟨rfl, rfl⟩
  case h_11 => cases taken
  all_goals
    obtain rfl := Option.some.inj taken
    exact both (setMask_frame ..)

theorem arrive_frame {signal : Signal} (taken : process.arrive signal = some next) :
    next.schedBuf = process.schedBuf ∧ next.reads = process.reads := by
  simp only [Process.arrive] at taken
  split_ifs at taken
  · exact Option.some.inj taken ▸ ⟨rfl, rfl⟩
  · cases signal <;> exact Option.some.inj taken ▸ ⟨rfl, rfl⟩

theorem schedule_frame {polled : FdSet} {blocking : Blocking}
    (taken : process.schedule inputs polled blocking = some next) :
    next.schedBuf = process.schedBuf ∧ next.reads = process.reads ∧ next.output = process.output ∧
      next.exited = process.exited := by
  unfold Process.schedule at taken
  split at taken
  · obtain ⟨yields, counted⟩ := countSwitch_eq process ‹_›
    rw [counted] at taken
    obtain rfl := Option.some.inj taken
    unfold Process.leave
    split <;> exact ⟨rfl, rfl, rfl, rfl⟩
  · cases taken

theorem step_buffer {label : Label} (taken : process.step inputs label = some next)
    (apart : process.control ≠ .setup) : next.schedBuf = process.schedBuf := by
  cases label with
  | arrive signal => exact (arrive_frame taken).1
  | deliver signal =>
    obtain ⟨-, -, rfl⟩ := step_deliver taken
    rfl
  | next => exact (next_frame taken).1 apart
  | schedule polled blocking => exact (schedule_frame taken).1

theorem Queues.Serves.reader {T : Type} {before after : Queues T} {up : T → Bool} {jmpval : Jump}
    (serves : before.Serves up jmpval after) {thread : T} (waits : thread ∈ after.waiting) :
    thread ∈ before.waiting ∨ jmpval = .asyncRead ∧ before.ready[before.current]? = some thread := by
  have kept : ∀ up : T → Bool, ∀ queues : Queues T, thread ∈ (queues.wake up).waiting → thread ∈ queues.waiting :=
    fun up queues member => (List.mem_filter.mp member).1
  have resumed : ∀ left : Queues T, left.Resumes after → thread ∈ left.waiting := by
    intro left resumes
    cases resumes with
    | ready => exact waits
    | woken up => exact kept up left waits
  cases serves with
  | first => exact .inl (kept up before waits)
  | yield => exact .inl (kept up before waits)
  | asyncRead other here resumes =>
    rcases List.mem_append.mp (resumed ((before.wake up).suspend other).retire resumes) with before_ | added
    · exact .inl (kept up before before_)
    · obtain rfl := List.mem_singleton.mp added
      exact .inr ⟨rfl, here⟩
  | exit resumes => exact .inl (kept up before (resumed (before.wake up).retire resumes))

theorem Live.asks (live : Live inputs process current loc queues) (control : process.control = .entry .asyncRead) :
    pointAt process current = some .read := by
  have stands := live.stands
  rw [control] at stands
  rw [live.here]
  cases stands
  rfl

theorem Live.reads (live : Live inputs process current loc queues) (control : process.control = .entry .asyncRead) :
    current = .maxSubarray := by
  obtain ⟨pieces, tracked⟩ := live.soloAt live.member
  exact alone_reads current (inputs.args current) (inputs.results current) pieces
    ((congrArg Solo.point tracked).trans (live.asks control))

theorem Live.runs_apart (live : Live inputs process current loc queues) {thread : Func}
    (waits : thread ∈ queues.waiting) : thread ≠ current := by
  rintro rfl
  exact live.sound.apart (live.active.running ▸ List.getElem_mem live.active.valid) waits

theorem Live.atCode {point : Point} (live : Live inputs process current loc queues)
    (control : process.control = .code func point) : func = current := by
  have stands := live.stands
  rw [control] at stands
  cases stands
  rfl

theorem Phase.atSetup (phase : Phase inputs process) (control : process.control = .setup) :
    process.mask = baseMask ∧ 2 ≤ process.handlers ∧ Fresh process := by
  cases phase with
  | setup _ mask handlers fresh => exact ⟨mask, handlers, fresh⟩
  | live live =>
    have stands := live.stands
    rw [control] at stands
    cases stands
  | stray other =>
    rcases other with ⟨_, other⟩ | other
    · cases control.symm.trans other
    · cases control.symm.trans other
  | boot other => cases control.symm.trans other
  | empty other => cases control.symm.trans other
  | ended other => cases control.symm.trans other
  | dead other => cases control.symm.trans other

theorem Phase.active_code {func : Func} {point : Point} (phase : Phase inputs process)
    (control : process.control = .code func point) :
    ∃ queues, Active inputs process func (.code point) queues := by
  rcases phase.cases_early with early | ⟨_, _, queues, stands, active, -⟩ | ⟨returned, -⟩
  · rw [control] at early
    cases early
  · rw [control] at stands
    cases stands
    exact ⟨queues, active⟩
  · cases control.symm.trans returned

-- Every step but an entry of the scheduler.
def Label.calm : Label → Bool
  | .schedule .. => false
  | _ => true

theorem Live.step_calm {label : Label} (live : Live inputs process current loc queues) (calm : label.calm = true)
    (taken : process.step inputs label = some next) : ∃ loc', Live inputs next current loc' queues := by
  cases label with
  | arrive signal =>
    obtain rfl := arrive_installed live.handlers taken
    exact ⟨loc, live.stands, live.active.stays rfl rfl rfl (fun thread => ⟨rfl, rfl, rfl, rfl⟩)
      fun _ has => SigSet.has_add has, live.mask, live.handlers, live.last⟩
  | deliver signal =>
    obtain ⟨-, deliverable, rfl⟩ := step_deliver taken
    exact ⟨.caught, live.deliver deliverable⟩
  | next => exact live.advances taken
  | schedule polled blocking => cases calm

theorem Live.calmKept {label : Label} (live : Live inputs process current loc queues) (calm : label.calm = true)
    (taken : process.step inputs label = some next)
    (apart : label = .next → ∀ point, process.control ≠ .code func point) :
    Threads.soloAt next func = Threads.soloAt process func := by
  cases label with
  | arrive signal =>
    obtain rfl := arrive_installed live.handlers taken
    rfl
  | deliver signal =>
    obtain ⟨-, deliverable, rfl⟩ := step_deliver taken
    exact live.deliverKept deliverable func
  | next => exact live.nextKept taken (apart rfl)
  | schedule polled blocking => cases calm

theorem Begun.step {label : Label} (phase : Phase inputs process) (begun : Begun inputs process)
    (taken : process.step inputs label = some next) : Begun inputs next := by
  cases begun with
  | before idle =>
    by_cases nobody : createdThreads inputs.args = []
    · exact .before (.inr nobody)
    have unset := idle.resolve_right nobody
    by_cases setup : process.control = .setup
    · cases label with
      | arrive signal => exact .before (.inl ((arrive_frame taken).1.trans unset))
      | deliver signal =>
        obtain ⟨-, -, rfl⟩ := step_deliver taken
        exact .before (.inl unset)
      | next =>
        simp only [Process.step, Process.next, setup, Option.some.injEq] at taken
        obtain ⟨mask, handlers, fresh⟩ := phase.atSetup setup
        obtain ⟨_, _, _, live, nobody⟩ := created_live nobody mask handlers fresh
        refine .live (taken ▸ live) fun thread waits => ?_
        rw [nobody] at waits
        cases waits
      | schedule polled blocking => simp [Process.step, Process.schedule, setup] at taken
    · exact .before (.inl ((step_buffer taken setup).trans unset))
  | @live current loc queues live reader =>
    have kept : (∀ thread ∈ queues.waiting, Threads.soloAt next thread = Threads.soloAt process thread) →
        ∀ thread ∈ queues.waiting, thread = .maxSubarray ∧ pointAt next thread = some .read :=
      fun same thread waits => (reader thread waits).imp_right (congrArg Solo.point (same thread waits)).trans
    cases label with
    | schedule polled blocking =>
      obtain ⟨jmpval, control, ⟨returned, ended⟩ | ⟨thread, loc', queues', live', serves, -⟩⟩ := live.serves taken
      · exact .ended returned ended
      have same := live.scheduleKept taken live'.unreturned
      refine .live live' fun other waits => ?_
      rcases serves.reader waits with before | ⟨rfl, here⟩
      · exact kept (fun thread _ => same thread) other before
      · obtain rfl := Option.some.inj (live.ran.symm.trans here)
        exact ⟨live.reads control, (congrArg Solo.point (same current)).trans (live.asks control)⟩
    | _ =>
      obtain ⟨loc', live'⟩ := live.step_calm rfl taken
      refine .live live' (kept fun thread waits => live.calmKept rfl taken fun _ point control => ?_)
      obtain rfl := live.atCode control
      exact live.runs_apart waits rfl
  | ended control _ =>
    rw [over_step (by rw [control]; rfl)] at taken
    cases taken

-- The steps to the next entry of the scheduler.
def Control.way : Control → Nat
  | .resumed _ => 8
  | .code .. => 7
  | .ending .. => 6
  | .yielding _ => 5
  | .firstWindow _ => 4
  | .secondWindow _ => 3
  | .handler _ => 2
  | .leaving => 1
  | _ => 0

theorem Live.nextWay (live : Live inputs process current loc queues) (taken : process.next inputs = some next)
    (apart : process.control ≠ .secondWindow current) :
    next.control.way < process.control.way ∧ next.control ≠ .entry .first := by
  have masked : ∀ mask there, Control.way there < process.control.way → 2 < process.control.way →
      there ≠ .entry .first → (process.setMask mask there).control.way < process.control.way ∧
        (process.setMask mask there).control ≠ .entry .first := by
    intro mask there less enough other
    rcases setMask_control process mask there with same | ⟨signo, caught⟩
    · rw [same]
      exact ⟨less, other⟩
    · rw [caught]
      exact ⟨enough, by simp⟩
  have stands := live.stands
  have runs := live.active.runs
  generalize control : process.control = here at stands masked apart
  cases stands with
  | code point =>
    simp only [Process.next, control, runs] at taken
    have active := live.active
    obtain ⟨act, -, after, -⟩ := active.code taken
    rw [after]
    exact ⟨by simp [Control.way], by simp⟩
  | ending act =>
    simp only [Process.next, control, runs, Option.some.injEq] at taken
    subst taken
    cases act <;> exact ⟨by simp [Process.runMacro, Process.go, Control.way], by simp [Process.runMacro, Process.go]⟩
  | yielding =>
    simp only [Process.next, control, Option.some.injEq] at taken
    exact taken ▸ masked alrmMask (.firstWindow current) (by simp [Control.way]) (by simp [Control.way]) (by simp)
  | firstWindow =>
    simp only [Process.next, control, Option.some.injEq] at taken
    exact taken ▸ masked tstpMask (.secondWindow current) (by simp [Control.way]) (by simp [Control.way]) (by simp)
  | secondWindow => exact absurd rfl apart
  | resumed =>
    simp only [Process.next, control, Option.some.injEq, Process.finishYield, setMask_base] at taken
    subst taken
    exact ⟨by simp [Control.way], by simp⟩
  | handler signo =>
    simp only [Process.next, control, Option.some.injEq, setMask_base] at taken
    subst taken
    exact ⟨by simp [Control.way], by simp⟩
  | leaving =>
    simp only [Process.next, control, live.active.buffer, if_true, Option.some.injEq] at taken
    subst taken
    exact ⟨by simp [Process.go, Control.way], by simp [Process.go]⟩
  | _ => simp [Process.next, control] at taken

-- SIGALRM comes in the second window.
theorem Live.interrupted (live : Live inputs process current loc queues)
    (control : process.control = .secondWindow current) :
    ∃ next, run (Process.step inputs) process [.arrive .alrm, .deliver .alrm] = some next ∧
      Live inputs next current .caught queues ∧ next.control = .handler .alrm ∧
      ∀ func, Threads.soloAt next func = Threads.soloAt process func := by
  have mask := live.mask
  rw [control] at mask
  have going := live.stands.going
  have installed : process.installed .alrm = true := decide_eq_true live.handlers
  have arrived : process.step inputs (.arrive .alrm) =
      some { process with pending := process.pending.add .alrm } := by
    simp [Process.step, Process.arrive, going, installed]
  have live' : Live inputs { process with pending := process.pending.add .alrm } current loc queues :=
    ⟨live.stands, live.active.stays rfl rfl rfl (fun thread => ⟨rfl, rfl, rfl, rfl⟩)
      fun _ has => SigSet.has_add has, live.mask, live.handlers, live.last⟩
  have deliverable : Process.deliverable { process with pending := process.pending.add .alrm } .alrm = true := by
    simp [Process.deliverable, mask, Control.mask, SigSet.add, SigSet.has, tstpMask]
  refine ⟨_, (run_cons ..).mpr ⟨_, arrived, (run_cons ..).mpr ⟨_, ?_, rfl⟩⟩, live'.deliver deliverable, rfl,
    fun func => live'.deliverKept deliverable func⟩
  have installed' : Process.installed { process with pending := process.pending.add .alrm } .alrm = true := installed
  simp [Process.step, going, installed', deliverable]

/-- A thread that is not at an entry of the scheduler gets closer to one. -/
theorem Live.towards (live : Live inputs process current loc queues) (inside : ∀ jmpval, process.control ≠ .entry jmpval)
    (apart : ∀ point, process.control ≠ .code func point) :
    ∃ labels next loc', run (Process.step inputs) process labels = some next ∧
      (∀ label ∈ labels, label.calm = true) ∧ Live inputs next current loc' queues ∧
      next.control.way < process.control.way ∧ next.control ≠ .entry .first ∧
      Threads.soloAt next func = Threads.soloAt process func := by
  by_cases window : process.control = .secondWindow current
  · obtain ⟨next, ran, live', control, kept⟩ := live.interrupted window
    refine ⟨_, next, .caught, ran, by simp [Label.calm], live', ?_, ?_, kept func⟩
    · rw [control, window]
      simp [Control.way]
    · rw [control]
      simp
  · obtain ⟨next, taken⟩ := live.next_some.resolve_right fun ⟨jmpval, control⟩ => inside jmpval control
    obtain ⟨loc', live'⟩ := live.advances taken
    obtain ⟨less, other⟩ := live.nextWay taken window
    exact ⟨[.next], next, loc', (run_cons ..).mpr ⟨next, taken, rfl⟩, by simp [Label.calm], live', less, other,
      live.nextKept taken apart⟩

end

section

variable {S L : Type} {step : S → L → Option S} {Good : S → Prop}

-- Some steps of the system lead from a state to another good one.
def CanReach (step : S → L → Option S) (Good : S → Prop) (state : S) (P : S → Prop) : Prop :=
  ∃ labels final, run step state labels = some final ∧ Good final ∧ P final

theorem CanReach.here {state : S} {P : S → Prop} (good : Good state) (holds : P state) :
    CanReach step Good state P :=
  ⟨[], state, rfl, good, holds⟩

theorem CanReach.trans {state : S} {P Q : S → Prop} (first : CanReach step Good state P)
    (later : ∀ middle, Good middle → P middle → CanReach step Good middle Q) : CanReach step Good state Q := by
  obtain ⟨labels, middle, ran, good, holds⟩ := first
  obtain ⟨rest, final, continued, good', holds'⟩ := later middle good holds
  exact ⟨labels ++ rest, final, (run_append ..).mpr ⟨middle, ran, continued⟩, good', holds'⟩

variable {inputs : Inputs} {func current : Func} {view : S → Process} {loc : Loc} {queues : Queues Func}

/-- A system that runs the process: it can follow each step, and enter the scheduler with a poll that finds
`func` ready when it waits, and nobody else. -/
structure Drives (inputs : Inputs) (func : Func) (step : S → L → Option S) (view : S → Process)
    (Good : S → Prop) : Prop where
  follows : ∀ state label next, Good state → label.calm = true →
    (view state).step inputs label = some next → CanReach step Good state fun final => view final = next
  enters : ∀ state current loc queues jmpval, Good state → Live inputs (view state) current loc queues →
    (view state).control = .entry jmpval → ∃ polled blocking,
      (∀ thread ∈ queues.waiting, polled (inputs.fd thread) = decide (thread = func)) ∧
      CanReach step Good state fun final => (view state).schedule inputs polled blocking = some (view final)

theorem Drives.follow_all (drives : Drives inputs func step view Good) {state : S} {labels : List Label}
    {next : Process} (good : Good state) (calm : ∀ label ∈ labels, label.calm = true)
    (ran : run (Process.step inputs) (view state) labels = some next) :
    CanReach step Good state fun final => view final = next := by
  induction labels generalizing state with
  | nil => exact .here good (Option.some.inj ran)
  | cons label rest ih =>
    obtain ⟨middle, taken, continued⟩ := (run_cons ..).mp ran
    obtain ⟨first, later⟩ := List.forall_mem_cons.mp calm
    exact (drives.follows state label middle good first taken).trans fun reached good same =>
      ih good later (same ▸ continued)

-- Before a piece of its own code, with as much left to do.
def AtCode (inputs : Inputs) (func : Func) (left : Nat) (process : Process) : Prop :=
  ∃ point queues, Live inputs process func (.code point) queues ∧ process.control = .code func point ∧
    piecesLeft inputs process func = left

theorem Drives.toCode (drives : Drives inputs func step view Good) {state : S} (good : Good state)
    (live : Live inputs (view state) func loc queues) (near : 7 ≤ (view state).control.way) :
    CanReach step Good state fun final =>
      AtCode inputs func (piecesLeft inputs (view state) func) (view final) := by
  have stands := live.stands
  generalize control : (view state).control = here at stands near
  cases stands with
  | code point => exact .here good ⟨point, queues, live, control, rfl⟩
  | resumed =>
    have taken : (view state).next inputs = some ((view state).finishYield func) := by
      simp only [Process.next, control]
    obtain ⟨loc', live'⟩ := live.advances taken
    have kept := live.leftSame live' (live.nextKept taken (by simp [control]) : soloAt _ func = soloAt _ func)
    refine (drives.follows state .next _ good rfl taken).trans fun final good same => .here good ?_
    have here : ((view state).finishYield func).control = .code func .next := by
      rw [Process.finishYield, setMask_base]
    rw [← same] at live' kept here
    have stands := live'.stands
    rw [here] at stands
    cases stands
    exact ⟨.next, queues, live', here, kept⟩
  | _ => simp [Control.way] at near

-- At an entry of the scheduler, with the same queues and as much left to do.
def AtEntry (inputs : Inputs) (func current : Func) (queues : Queues Func) (left : Nat) (process : Process) : Prop :=
  ∃ loc jmpval, Live inputs process current loc queues ∧ process.control = .entry jmpval ∧ jmpval ≠ .first ∧
    piecesLeft inputs process func = left

theorem Drives.toEntry (drives : Drives inputs func step view Good) {state : S} (good : Good state)
    (live : Live inputs (view state) current loc queues) (again : (view state).control ≠ .entry .first)
    (away : current = func → (view state).control.way < 7) :
    CanReach step Good state fun final =>
      AtEntry inputs func current queues (piecesLeft inputs (view state) func) (view final) := by
  induction way : (view state).control.way using Nat.strongRecOn generalizing state loc with
  | _ bound ih =>
    by_cases entry : ∃ jmpval, (view state).control = .entry jmpval
    · obtain ⟨jmpval, control⟩ := entry
      exact .here good ⟨loc, jmpval, live, control, fun first => again (first ▸ control), rfl⟩
    · have apart : ∀ point, (view state).control ≠ .code func point := by
        intro point control
        have near := away (live.atCode control).symm
        rw [control] at near
        exact absurd near (by simp [Control.way])
      obtain ⟨labels, next, loc', ran, calm, live', less, again', kept⟩ :=
        live.towards (fun jmpval control => entry ⟨jmpval, control⟩) apart
      refine (drives.follow_all good calm ran).trans fun middle good same => ?_
      subst same
      rw [← live.leftSame live' kept]
      exact ih _ (by omega) good live' again' (fun mine => by have := away mine; omega) rfl

theorem Queues.wake_none {T : Type} {up : T → Bool} {queues : Queues T}
    (nobody : ∀ thread ∈ queues.waiting, up thread = false) : queues.wake up = queues := by
  obtain ⟨ready, current, waiting⟩ := queues
  have none_ : waiting.filter up = [] := List.filter_eq_nil_iff.mpr fun thread waits => by simp [nobody thread waits]
  have all : (waiting.filter fun thread => !up thread) = waiting :=
    List.filter_eq_self.mpr fun thread waits => by simp [nobody thread waits]
  simp only [wake, none_, all, List.append_nil]

theorem resume_way (environment : Func × Place) :
    7 ≤ (resume environment).way ∧ resume environment ≠ .entry .first := by
  obtain ⟨func, place⟩ := environment
  cases place <;> simp [resume, Control.way]

/-- A created thread comes to its turn, unless it has exited. -/
theorem Drives.turn (drives : Drives inputs func step view Good) (created : func ∈ createdThreads inputs.args)
    {state : S} (good : Good state) (live : Live inputs (view state) current loc queues)
    (again : (view state).control ≠ .entry .first) :
    CanReach step Good state fun final => func ∈ (view final).exited ∨
      AtCode inputs func (piecesLeft inputs (view state) func) (view final) := by
  induction far : queues.rank func using Nat.strongRecOn generalizing state current loc queues with
  | _ bound ih =>
    by_cases near : current = func ∧ 7 ≤ (view state).control.way
    · obtain ⟨rfl, near⟩ := near
      exact (drives.toCode good live near).trans fun final good at_ => .here good (.inr at_)
    refine (drives.toEntry good live again fun mine => by
      by_contra less
      exact near ⟨mine, by omega⟩).trans fun entry good ⟨loc', jmpval, live, control, again, kept⟩ => ?_
    by_cases gone : func ∈ (view entry).exited
    · exact .here good (.inl gone)
    have present : func ∈ queues.threads := (live.active.left func created).resolve_right gone
    obtain ⟨polled, blocking, finds, entered⟩ := drives.enters entry current loc' queues jmpval good live control
    refine entered.trans fun final good taken => ?_
    obtain ⟨jmpval', control', ⟨returned, ended⟩ | ⟨thread, loc'', queues', live', serves, -, jumped, exited⟩⟩ :=
      live.serves taken
    · exact .here good (.inl ((ended.exited func).mpr created))
    obtain rfl : jmpval' = jmpval := Control.entry.inj (control'.symm.trans control)
    obtain ⟨code, again'⟩ := resume_way ((view entry).heap thread).environment
    rw [← jumped] at code again'
    have kept' : piecesLeft inputs (view final) func = piecesLeft inputs (view state) func :=
      (live.leftSame live' (live.scheduleKept taken live'.unreturned func)).trans kept
    rw [← kept']
    by_cases served : thread = func
    · subst served
      exact (drives.toCode good live' code).trans fun final good at_ => .here good (.inr at_)
    -- somebody else is dispatched, and the thread is closer to its turn
    refine ih _ ?_ good live' again' rfl
    rw [← far]
    have sizes := live'.active.refines.sizes
    refine serves.rank again live.sound live'.sound (by omega) present (fun waits => ?_) (fun ready => ?_) ?_
    · simpa using finds func waits
    · refine Queues.wake_none fun other waits => ?_
      rw [finds other waits, decide_eq_false_iff_not]
      rintro rfl
      exact live.sound.apart ready waits
    · rw [live'.ran]
      exact fun same => served (Option.some.inj same)

/-- So it can exit if it does by itself. -/
theorem Drives.exits_again (drives : Drives inputs func step view Good) (created : func ∈ createdThreads inputs.args)
    (ends : (Solo.start func (inputs.args func)).Ends func (inputs.results func)) {state : S} (good : Good state)
    (live : Live inputs (view state) current loc queues) (again : (view state).control ≠ .entry .first) :
    CanReach step Good state fun final => func ∈ (view final).exited := by
  induction left : piecesLeft inputs (view state) func using Nat.strongRecOn generalizing state current loc queues with
  | _ bound ih =>
    refine (drives.turn created good live again).trans fun middle good at_ => ?_
    rcases at_ with gone | ⟨point, queues', live, control, kept⟩
    · exact .here good gone
    obtain ⟨next, taken⟩ := live.next_some.resolve_right fun ⟨jmpval, other⟩ => by cases control.symm.trans other
    have less := live.pieceLess control ends taken
    obtain ⟨loc', live'⟩ := live.advances taken
    obtain ⟨-, again'⟩ := live.nextWay taken (by simp [control])
    refine (drives.follows middle .next next good rfl taken).trans fun final good same => ?_
    subst same
    exact ih _ (by omega) good live' again' rfl

theorem Drives.exits (drives : Drives inputs func step view Good) (created : func ∈ createdThreads inputs.args)
    (ends : (Solo.start func (inputs.args func)).Ends func (inputs.results func)) {state : S} (good : Good state)
    (live : Live inputs (view state) current loc queues) :
    CanReach step Good state fun final => func ∈ (view final).exited := by
  by_cases first : (view state).control = .entry .first
  · obtain ⟨polled, blocking, -, entered⟩ := drives.enters state current loc queues .first good live first
    refine entered.trans fun final good taken => ?_
    obtain ⟨-, -, ⟨-, ended⟩ | ⟨thread, loc', queues', live', -, -, jumped, -⟩⟩ := live.serves taken
    · exact .here good ((ended.exited func).mpr created)
    · refine drives.exits_again created ends good live' ?_
      rw [jumped]
      exact (resume_way _).2
  · exact drives.exits_again created ends good live first

/-- From every state with the threads created. -/
theorem Drives.leaves (drives : Drives inputs func step view Good) (created : func ∈ createdThreads inputs.args)
    (ends : (Solo.start func (inputs.args func)).Ends func (inputs.results func)) {state : S} (good : Good state)
    (begun : Begun inputs (view state)) (started : (view state).schedBuf = true) :
    CanReach step Good state fun final => func ∈ (view final).exited := by
  cases begun with
  | before idle =>
    rcases idle with unset | nobody
    · exact absurd (unset.symm.trans started) Bool.false_ne_true
    · exact absurd nobody (List.ne_nil_of_mem created)
  | live live => exact drives.exits created ends good live
  | ended _ ended => exact .here good ((ended.exited func).mpr created)

end

section

variable {inputs : Inputs} {process : Process} {func : Func}

def Alive (inputs : Inputs) (process : Process) : Prop := Phase inputs process ∧ Begun inputs process

theorem Alive.run {memory : Func → Tcb} {labels : List Label}
    (ran : run (Process.step inputs) (Process.begin memory) labels = some process) : Alive inputs process :=
  run_invariant (Process.step inputs) (Alive inputs)
    (fun _ _ _ alive taken => ⟨alive.1.step taken, alive.2.step alive.1 taken⟩) _ _ labels
    ⟨.begin inputs memory, .before (.inl rfl)⟩ ran

-- The process itself, with a `select` that answers as it should.
theorem process_drives :
    Drives inputs func (Process.step inputs) id (Alive inputs) := by
  have steps : ∀ state label next, Alive inputs state → state.step inputs label = some next →
      CanReach (Process.step inputs) (Alive inputs) state fun final => final = next :=
    fun state label next alive taken => ⟨[label], next, (run_cons ..).mpr ⟨next, taken, rfl⟩,
      ⟨alive.1.step taken, alive.2.step alive.1 taken⟩, rfl⟩
  refine ⟨fun state label next alive _ taken => steps state label next alive taken, ?_⟩
  intro state current loc queues jmpval alive live control
  refine ⟨fun _ => decide (Func.maxSubarray = func), .all, fun thread waits => ?_, ?_⟩
  · rw [(alive.2.reader live thread waits).1]
  · have taken : (id state).schedule inputs (fun _ => decide (Func.maxSubarray = func)) .all =
        some ((state.countSwitch jmpval).leave
          (scheduler inputs.fd jmpval (fun _ => decide (Func.maxSubarray = func)) .all state.sched)) := by
      have control : state.control = .entry jmpval := control
      simp only [id, Process.schedule, control]
    exact (steps state (.schedule _ _) _ alive taken).trans fun final alive same => .here alive (same ▸ taken)

/-- In every run whose threads have been created, a thread that exits by itself can still exit, whatever the
other threads do: it takes signals and the answers of `select`. -/
theorem can_exit {memory : Func → Tcb} {labels : List Label}
    (ran : Lib.run (Process.step inputs) (Process.begin memory) labels = some process)
    (started : process.schedBuf = true) (created : func ∈ createdThreads inputs.args)
    (ends : (Solo.start func (inputs.args func)).Ends func (inputs.results func)) :
    ∃ rest final, Lib.run (Process.step inputs) process rest = some final ∧ func ∈ final.exited := by
  have alive := Alive.run ran
  obtain ⟨rest, final, ran', -, exited⟩ := process_drives.leaves created ends alive alive.2 started
  exact ⟨rest, final, ran', exited⟩

end

end SPHomework.Threads
