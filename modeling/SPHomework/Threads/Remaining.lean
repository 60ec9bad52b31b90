import Mathlib.Algebra.Order.BigOperators.Group.List
import Mathlib.Order.Nat
import SPHomework.Threads.Isolation
import SPHomework.Threads.Signals

set_option autoImplicit false

/-!
# What is left to do

Each step of the process brings it closer to the next piece of a thread, and each
piece brings a thread closer to its exit. Signals that arrive cost nothing, and
the way through the handler is paid by the piece before it.
-/

namespace SPHomework.Threads

open Lib

/-- The pieces that are left, or 0 for a thread that never exits. -/
noncomputable def Solo.left (func : Func) (results : Nat → List UInt8) (solo : Solo) : Nat :=
  sInf {count | ((Solo.advance func results)^[count] solo).point = none}

def Solo.Ends (func : Func) (results : Nat → List UInt8) (solo : Solo) : Prop :=
  ∃ count, ((Solo.advance func results)^[count] solo).point = none

theorem Solo.left_advance {func : Func} {results : Nat → List UInt8} {solo : Solo}
    (ends : solo.Ends func results) (going : solo.point ≠ none) :
    (solo.advance func results).left func results < solo.left func results := by
  have last : ((Solo.advance func results)^[solo.left func results] solo).point = none := Nat.sInf_mem ends
  cases count : solo.left func results with
  | zero =>
    rw [count] at last
    exact absurd last going
  | succ count_ =>
    rw [count] at last
    exact Nat.lt_succ_of_le (Nat.sInf_le last)

-- What the thread by itself reaches from where it is.
theorem ends_of_alone {func : Func} {arg : Int} {results : Nat → List UInt8} {solo : Solo}
    (ends : (Solo.start func arg).Ends func results) (tracked : ∃ pieces, alone func arg results pieces = solo) :
    solo.Ends func results := by
  obtain ⟨last, exited⟩ := ends
  obtain ⟨pieces, rfl⟩ := tracked
  refine ⟨last, ?_⟩
  rw [alone, ← Function.iterate_add_apply]
  have later := alone_exited func arg results (Nat.le_add_right last pieces) exited
  exact (congrArg Solo.point later).trans exited

-- Each created thread exits by itself.
def AllExit (inputs : Inputs) : Prop :=
  ∀ func ∈ createdThreads inputs.args,
    ∃ pieces, (alone func (inputs.args func) (inputs.results func) pieces).point = none

-- Where the thread whose environment is `place` goes on when it is `RUNNING`.
def Control.point (place : Place) : Control → Option Point
  | .code _ point => some point
  | .ending _ act => act.point
  | .entry _ => some place.point
  | _ => some .next

def pointAt (process : Process) (func : Func) : Option Point :=
  if func ∈ process.exited then none
  else if running process.sched = some func then process.control.point (process.heap func).environment.2
  else some (process.heap func).environment.2.point

/-- The thread as it is in the process. -/
def soloAt (process : Process) (func : Func) : Solo :=
  ⟨(process.heap func).toVars, printedBy process func, process.reads func, pointAt process func⟩

-- Before `init_threads` is done.
def Control.unstarted : Control → Bool
  | .boot => true
  | .setup => true
  | _ => false

noncomputable def piecesLeft (inputs : Inputs) (process : Process) (func : Func) : Nat :=
  if process.control.unstarted || !process.schedBuf then
    (Solo.start func (inputs.args func)).left func (inputs.results func)
  else (soloAt process func).left func (inputs.results func)

def SigSet.unblocked (mask : SigSet) : Nat := (!mask.tstp).toNat + (!mask.alrm).toNat

-- The steps to the next piece, or to the end.
def Control.steps : Control → Nat
  | .boot => 7
  | .setup => 3
  | .code .. => 0
  | .ending .. => 11
  | .yielding _ => 10
  | .firstWindow _ => 6
  | .secondWindow _ => 5
  | .resumed _ => 1
  | .handler _ => 4
  | .leaving => 3
  | .entry _ => 2
  | .returned => 0
  | .dead => 0

/-- A bound on the steps that are left. A delivery blocks a signal, which makes up for the way through its
handler. -/
noncomputable def remaining (inputs : Inputs) (process : Process) : Nat :=
  if process.control.over then 0
  else 1 + 12 * ((createdThreads inputs.args).map (piecesLeft inputs process)).sum + 3 * process.mask.unblocked +
    process.control.steps + (2 - process.handlers)

-- The steps of the process itself.
def Label.own : Label → Bool
  | .arrive _ => false
  | _ => true

section

variable {inputs : Inputs} {process next : Process} {func current : Func} {loc : Loc} {queues : Queues Func}

theorem Stands.point {control : Control} {place : Place} (stands : Stands func control loc) (alive : loc ≠ .gone)
    (environment : ∀ place', loc.place = some place' → place' = place) : control.point place = loc.point := by
  cases stands with
  | first => exact congrArg (fun place => some (Place.point place)) (environment .setup rfl).symm
  | yield => exact congrArg (fun place => some (Place.point place)) (environment .yield rfl).symm
  | asyncRead => exact congrArg (fun place => some (Place.point place)) (environment .asyncRead rfl).symm
  | exit => exact absurd rfl alive
  | _ => rfl

theorem Live.queued (live : Live inputs process current loc queues) : current ∈ queues.threads := by
  rw [← live.active.running]
  exact List.mem_append_left _ (List.getElem_mem _)

theorem Live.member (live : Live inputs process current loc queues) : current ∈ createdThreads inputs.args :=
  live.active.created current live.queued

theorem Live.here (live : Live inputs process current loc queues) : pointAt process current = loc.point := by
  by_cases last : loc = .gone
  · rw [pointAt, if_pos (live.active.gone last), last]
    rfl
  · rw [pointAt, if_neg fun gone => last (live.active.live current live.queued gone).2, if_pos live.active.runs]
    exact live.stands.point last fun place known => by rw [live.active.here.environment place known]

theorem Live.elsewhere (live : Live inputs process current loc queues) (other : func ≠ current) :
    pointAt process func =
      if func ∈ process.exited then none else some (process.heap func).environment.2.point := by
  have apart : running process.sched ≠ some func := by
    rw [live.active.runs]
    exact fun equal => other (Option.some.inj equal).symm
  rw [pointAt, if_neg apart]

-- Each thread is where it gets to by itself.
theorem Live.soloAt (live : Live inputs process current loc queues) (created : func ∈ createdThreads inputs.args) :
    ∃ pieces, Threads.alone func (inputs.args func) (inputs.results func) pieces = soloAt process func := by
  rw [Threads.soloAt]
  by_cases same : func = current
  · rw [same, live.here]
    exact live.active.here.tracked
  · rw [live.elsewhere same]
    by_cases gone : func ∈ process.exited
    · rw [if_pos gone]
      exact (live.active.exited func gone).2.tracked
    · obtain ⟨place, at_⟩ :=
        live.active.others func ((live.active.left func created).resolve_right gone) same
      rw [if_neg gone, at_.environment place rfl]
      exact at_.tracked

theorem Live.started (live : Live inputs process current loc queues) (func : Func) :
    piecesLeft inputs process func = (Threads.soloAt process func).left func (inputs.results func) := by
  have begun : process.control.unstarted = false := by
    have stands := live.stands
    generalize process.control = control at stands
    cases stands <;> rfl
  rw [piecesLeft, begun, live.active.buffer]
  rfl

-- A step that leaves the fields of the threads as they are, and each thread before the same piece.
theorem Live.kept {loc' : Loc} {queues' : Queues Func} (live : Live inputs process current loc queues)
    (live' : Live inputs next current loc' queues') (point : loc'.point = loc.point)
    (vars : (next.heap current).toVars = (process.heap current).toVars) (output : next.output = process.output)
    (reads : next.reads = process.reads) (others : ∀ func ≠ current, next.heap func = process.heap func)
    (exited : ∀ func ≠ current, (func ∈ next.exited ↔ func ∈ process.exited)) (func : Func) :
    Threads.soloAt next func = Threads.soloAt process func := by
  rw [Threads.soloAt, Threads.soloAt, printedBy, output, reads, ← printedBy]
  by_cases same : func = current
  · rw [same, live.here, live'.here, vars, point]
  · rw [live.elsewhere same, live'.elsewhere same, others func same, if_congr (exited func same) rfl rfl]

theorem Live.leftSame {current' : Func} {loc' : Loc} {queues' : Queues Func}
    (live : Live inputs process current loc queues) (live' : Live inputs next current' loc' queues')
    (same : Threads.soloAt next func = Threads.soloAt process func) :
    piecesLeft inputs next func = piecesLeft inputs process func := by
  rw [live.started, live'.started, same]

theorem remaining_less (going : process.control.over = false)
    (kept : ∀ func ∈ createdThreads inputs.args, piecesLeft inputs next func = piecesLeft inputs process func)
    (less : 3 * next.mask.unblocked + next.control.steps + (2 - next.handlers) <
      3 * process.mask.unblocked + process.control.steps + (2 - process.handlers)) :
    remaining inputs next < remaining inputs process := by
  rw [remaining, remaining, if_neg (by simp [going] : ¬ process.control.over = true), List.map_congr_left kept]
  split_ifs
  · omega
  · omega

theorem unblocked_add {mask : SigSet} {signal : Signal} (unblocked : mask.has signal = false) :
    (mask.add signal).unblocked + 1 = mask.unblocked := by
  cases signal
  all_goals
    simp only [SigSet.has] at unblocked
    simp [SigSet.add, SigSet.unblocked, unblocked]
    try omega

theorem deliver_steps {signal : Signal} (deliverable : process.deliverable signal = true) :
    3 * (process.deliver signal).mask.unblocked + (process.deliver signal).control.steps =
      3 * process.mask.unblocked + 1 := by
  simp only [Process.deliverable, Bool.and_eq_true, Bool.not_eq_true'] at deliverable
  have fewer := unblocked_add deliverable.2
  change 3 * (process.mask.add signal).unblocked + 4 = _
  omega

theorem setMask_steps (process : Process) (mask : SigSet) (control : Control) (some_ : 1 ≤ control.steps) :
    3 * (process.setMask mask control).mask.unblocked + (process.setMask mask control).control.steps ≤
      3 * mask.unblocked + control.steps := by
  unfold Process.setMask
  dsimp only
  split_ifs with tstp alrm
  · rw [deliver_steps tstp]
    dsimp only
    omega
  · rw [deliver_steps alrm]
    dsimp only
    omega
  · exact Nat.le_refl _

/-- What `sigprocmask` leaves as it is, whether or not it delivers. -/
structure Untaken (process next : Process) : Prop where
  heap : next.heap = process.heap
  output : next.output = process.output
  reads : next.reads = process.reads
  exited : next.exited = process.exited
  handlers : next.handlers = process.handlers

theorem setMask_untaken (process : Process) (mask : SigSet) (control : Control) :
    Untaken process (process.setMask mask control) := by
  unfold Process.setMask
  dsimp only
  split_ifs <;> exact ⟨rfl, rfl, rfl, rfl, rfl⟩

theorem Live.untaken {loc' : Loc} {queues' : Queues Func} (live : Live inputs process current loc queues)
    (live' : Live inputs next current loc' queues') (point : loc'.point = loc.point)
    (untaken : Untaken process next) (func : Func) : Threads.soloAt next func = Threads.soloAt process func :=
  live.kept live' point (by rw [untaken.heap]) untaken.output untaken.reads (fun _ _ => by rw [untaken.heap])
    (fun _ _ => by rw [untaken.exited]) func

theorem setMask_control (process : Process) (mask : SigSet) (control : Control) :
    (process.setMask mask control).control = control ∨
      ∃ signo, (process.setMask mask control).control = .handler signo := by
  unfold Process.setMask
  dsimp only
  split_ifs
  · exact .inr ⟨_, rfl⟩
  · exact .inr ⟨_, rfl⟩
  · exact .inl rfl

-- In `thread_yield`, up to the scheduler.
theorem Live.maskedKept {loc' : Loc} {queues' : Queues Func} {mask : SigSet} {there : Control}
    (live : Live inputs process current loc queues)
    (live' : Live inputs (process.setMask mask there) current loc' queues') (here : loc.point = some .next)
    (window : there.window = some current) (func : Func) :
    Threads.soloAt (process.setMask mask there) func = Threads.soloAt process func := by
  have point : loc'.point = some .next := by
    have stands := live'.stands
    rcases setMask_control process mask there with same | ⟨signo, caught⟩
    · rw [same] at stands
      cases stands <;> simp [Control.window] at window <;> rfl
    · rw [caught] at stands
      cases stands
      rfl
  exact live.untaken live' (point.trans here.symm) (setMask_untaken process mask there) func

theorem maskedLess {mask : SigSet} {there : Control} (going : process.control.over = false)
    (kept : ∀ func ∈ createdThreads inputs.args,
      piecesLeft inputs (process.setMask mask there) func = piecesLeft inputs process func)
    (less : 3 * mask.unblocked + there.steps < 3 * process.mask.unblocked + process.control.steps)
    (some_ : 1 ≤ there.steps) :
    remaining inputs (process.setMask mask there) < remaining inputs process := by
  have untaken := setMask_untaken process mask there
  have steps := setMask_steps process mask there some_
  refine remaining_less going kept ?_
  rw [untaken.handlers]
  omega

theorem Stands.going {control : Control} (stands : Stands func control loc) : control.over = false := by
  cases stands <;> rfl

theorem Live.unreturned (live : Live inputs process current loc queues) : process.control ≠ .returned := by
  intro returned
  have going := live.stands.going
  rw [returned] at going
  cases going

-- The values that a piece prints are those of its thread.
theorem Live.pieceValues (live : Live inputs process current loc queues) {bytes : List UInt8} {point : Point}
    {vars : Vars} {value : Option Int} {act : Act}
    (code : Threads.code current bytes point (process.heap current).toVars = some (vars, value, act)) (func : Func) :
    valuesOf func (process.output ++ value.toList.map fun value => (vars.id, value)) =
      printedBy process func ++ if func = current then value.toList else [] := by
  rw [(code_id code).trans live.active.here.id]
  exact valuesOf_append func current process.output value

/-- A piece of code leaves the other threads where they are. -/
theorem Live.pieceKept {point : Point} (live : Live inputs process current (.code point) queues)
    (control : process.control = .code current point) (taken : process.next inputs = some next)
    (other : func ≠ current) : Threads.soloAt next func = Threads.soloAt process func := by
  obtain ⟨loc', live'⟩ := live.advances taken
  simp only [Process.next, control, live.active.runs] at taken
  obtain ⟨⟨vars, value, act⟩, code, rfl⟩ := Option.map_eq_some_iff.mp taken
  rw [Threads.soloAt, Threads.soloAt, live.elsewhere other, live'.elsewhere other, Solo.mk.injEq]
  refine ⟨by simp [other], (live.pieceValues code func).trans (by rw [if_neg other, List.append_nil]), ?_,
    by simp [other]⟩
  dsimp only
  split_ifs
  · exact Function.update_of_ne other _ _
  · rfl

-- It takes its own thread as far as it gets by itself.
theorem Live.pieceTaken {point : Point} (live : Live inputs process current (.code point) queues)
    (control : process.control = .code current point) (taken : process.next inputs = some next) :
    Threads.soloAt next current = (Threads.soloAt process current).advance current (inputs.results current) := by
  obtain ⟨loc', live'⟩ := live.advances taken
  have stands' := live'.stands
  simp only [Process.next, control, live.active.runs] at taken
  obtain ⟨⟨vars, value, act⟩, code, rfl⟩ := Option.map_eq_some_iff.mp taken
  rw [Threads.soloAt, Threads.soloAt, live.here, live'.here, advance_eq rfl code, Solo.mk.injEq]
  refine ⟨by simp, ?_, ?_, ?_⟩
  · exact (live.pieceValues code current).trans (by rw [if_pos rfl])
  · dsimp only
    split_ifs
    · exact Function.update_self ..
    · rfl
  · cases stands'
    rfl

/-- And so closer to its exit. -/
theorem Live.pieceLess {point : Point} (live : Live inputs process current (.code point) queues)
    (control : process.control = .code current point)
    (ends : (Solo.start current (inputs.args current)).Ends current (inputs.results current))
    (taken : process.next inputs = some next) : piecesLeft inputs next current < piecesLeft inputs process current := by
  obtain ⟨loc', live'⟩ := live.advances taken
  have going : (Threads.soloAt process current).point ≠ none := by
    rw [Threads.soloAt, live.here]
    exact Option.some_ne_none _
  rw [live'.started, live.started, live.pieceTaken control taken]
  exact Solo.left_advance (ends_of_alone ends (live.soloAt live.member)) going

theorem Live.codeLess {point : Point} (live : Live inputs process current (.code point) queues)
    (control : process.control = .code current point)
    (ends : (Solo.start current (inputs.args current)).Ends current (inputs.results current))
    (taken : process.next inputs = some next) : remaining inputs next < remaining inputs process := by
  have fewer := live.pieceLess control ends taken
  have sum : ((createdThreads inputs.args).map (piecesLeft inputs next)).sum <
      ((createdThreads inputs.args).map (piecesLeft inputs process)).sum := by
    refine List.sum_lt_sum _ _ (fun func _ => ?_) ⟨current, live.member, fewer⟩
    by_cases here : func = current
    · exact here ▸ fewer.le
    · obtain ⟨loc', live'⟩ := live.advances taken
      exact (live.leftSame live' (live.pieceKept control taken here)).le
  have mask := live.mask
  have runs := live.active.runs
  simp only [Process.next, control, runs] at taken
  obtain ⟨act, -, control', mask', handlers⟩ := live.active.code taken
  rw [remaining, remaining, control', mask', mask, handlers, control]
  simp only [Control.over, Control.steps, Bool.false_eq_true, if_false]
  omega

theorem Live.endingKept {act : Act} (live : Live inputs process current (.ending act) queues)
    (control : process.control = .ending current act) (taken : process.next inputs = some next) (func : Func) :
    Threads.soloAt next func = Threads.soloAt process func := by
  obtain ⟨loc', live'⟩ := live.advances taken
  have stands' := live'.stands
  simp only [Process.next, control, live.active.runs, Option.some.injEq] at taken
  subst taken
  refine live.kept live' ?_ ?_ ?_ ?_ ?_ ?_ func
  · cases act <;> cases stands' <;> rfl
  · cases act <;> simp [Process.runMacro, Process.setEnvironment, Process.go]
  · cases act <;> rfl
  · cases act <;> rfl
  · intro other apart
    cases act <;> simp [Process.runMacro, Process.setEnvironment, Process.go, apart]
  · intro other apart
    cases act <;> simp [Process.runMacro, Process.setEnvironment, Process.go, apart]

/-- Only its own pieces change where a thread is. -/
theorem Live.nextKept (live : Live inputs process current loc queues) (taken : process.next inputs = some next)
    (apart : ∀ point, process.control ≠ .code func point) :
    Threads.soloAt next func = Threads.soloAt process func := by
  obtain ⟨loc', live'⟩ := live.advances taken
  have stands := live.stands
  have stands' := live'.stands
  generalize control : process.control = here at stands apart
  cases stands with
  | code point =>
    refine live.pieceKept control taken ?_
    rintro rfl
    exact apart point rfl
  | ending act => exact live.endingKept control taken func
  | yielding =>
    simp only [Process.next, control, Option.some.injEq] at taken
    subst taken
    exact live.maskedKept live' rfl rfl func
  | firstWindow =>
    simp only [Process.next, control, Option.some.injEq] at taken
    subst taken
    exact live.maskedKept live' rfl rfl func
  | secondWindow =>
    simp only [Process.next, control, Option.some.injEq, Process.finishYield, setMask_base] at taken
    subst taken
    exact live.untaken live' (by cases stands'; rfl) ⟨rfl, rfl, rfl, rfl, rfl⟩ func
  | resumed =>
    simp only [Process.next, control, Option.some.injEq, Process.finishYield, setMask_base] at taken
    subst taken
    exact live.untaken live' (by cases stands'; rfl) ⟨rfl, rfl, rfl, rfl, rfl⟩ func
  | handler signo =>
    simp only [Process.next, control, Option.some.injEq, setMask_base] at taken
    subst taken
    exact live.untaken live' (by cases stands'; rfl) ⟨rfl, rfl, rfl, rfl, rfl⟩ func
  | leaving =>
    simp only [Process.next, control, live.active.buffer, if_true, Option.some.injEq] at taken
    subst taken
    exact live.untaken live' (by cases stands'; rfl) ⟨rfl, rfl, rfl, rfl, rfl⟩ func
  -- at an entry of the scheduler
  | _ => simp [Process.next, control] at taken

theorem Live.nextLess (live : Live inputs process current loc queues) (ends : AllExit inputs)
    (taken : process.next inputs = some next) : remaining inputs next < remaining inputs process := by
  obtain ⟨loc', live'⟩ := live.advances taken
  have kept := fun (calm : ∀ func point, process.control ≠ .code func point) func
    (_ : func ∈ createdThreads inputs.args) => live.leftSame live' (live.nextKept taken (calm func))
  have stands := live.stands
  have mask := live.mask
  have going := stands.going
  generalize control : process.control = here at stands mask going kept
  rw [← control] at going
  cases stands with
  | code point => exact live.codeLess control (ends current live.member) taken
  | ending act =>
    simp only [Process.next, control, live.active.runs, Option.some.injEq] at taken
    subst taken
    refine remaining_less going (kept (by simp)) ?_
    rw [control]
    cases act <;> simp only [Process.runMacro, Process.setEnvironment, Process.go, Control.steps] <;> omega
  | yielding =>
    simp only [Process.next, control, Option.some.injEq] at taken
    subst taken
    refine maskedLess going (kept (by simp)) ?_ (by simp [Control.steps])
    rw [mask, control]
    simp [Control.steps, Control.mask, SigSet.unblocked, alrmMask, baseMask]
  | firstWindow =>
    simp only [Process.next, control, Option.some.injEq] at taken
    subst taken
    refine maskedLess going (kept (by simp)) ?_ (by simp [Control.steps])
    rw [mask, control]
    simp [Control.steps, Control.mask, SigSet.unblocked, alrmMask, tstpMask]
  | secondWindow =>
    simp only [Process.next, control, Option.some.injEq, Process.finishYield, setMask_base] at taken
    subst taken
    refine remaining_less going (kept (by simp)) ?_
    rw [mask, control]
    simp [Process.onYield, Control.steps, Control.mask, SigSet.unblocked, tstpMask, baseMask]
  | resumed =>
    simp only [Process.next, control, Option.some.injEq, Process.finishYield, setMask_base] at taken
    subst taken
    refine remaining_less going (kept (by simp)) ?_
    rw [mask, control]
    simp [Process.onYield, Control.steps, Control.mask, SigSet.unblocked, baseMask]
  | handler signo =>
    simp only [Process.next, control, Option.some.injEq, setMask_base] at taken
    subst taken
    refine remaining_less going (kept (by simp)) ?_
    rw [mask, control]
    simp [Control.steps, Control.mask, SigSet.unblocked, baseMask]
  | leaving =>
    simp only [Process.next, control, live.active.buffer, if_true, Option.some.injEq] at taken
    subst taken
    refine remaining_less going (kept (by simp)) ?_
    change 3 * process.mask.unblocked + 2 + _ < _
    rw [control]
    simp [Process.go, Control.steps]
  -- at an entry of the scheduler
  | _ => simp [Process.next, control] at taken

-- The scheduler ends with a jump to a thread or with `return`.
theorem Live.scheduled {jmpval : Jump} (polled : FdSet) (blocking : Blocking)
    (live : Live inputs process current loc queues) (control : process.control = .entry jmpval) :
    ∃ result, scheduler inputs.fd jmpval polled blocking process.sched = some result := by
  have stands := live.stands
  have refines := live.active.refines
  have valid := live.active.valid
  rw [control] at stands
  cases stands with
  | first =>
    obtain ⟨_, _, _, ran, -⟩ := scheduler_first inputs.fd polled blocking refines valid
    exact ⟨_, ran⟩
  | yield =>
    obtain ⟨_, _, _, ran, -⟩ := scheduler_yield inputs.fd polled blocking refines valid
    exact ⟨_, ran⟩
  | asyncRead =>
    obtain ⟨_, _, _, ran, -⟩ := scheduler_asyncRead inputs.fd polled blocking refines valid
    exact ⟨_, ran⟩
  | exit =>
    obtain ⟨rest, -, last, others⟩ := scheduler_exit inputs.fd polled blocking refines valid
    by_cases empty : rest.threads = []
    · obtain ⟨_, ran, -⟩ := last empty
      exact ⟨_, ran⟩
    · obtain ⟨_, _, _, ran, -⟩ := others empty
      exact ⟨_, ran⟩

theorem countSwitch_eq (process : Process) (jmpval : Jump) :
    ∃ yields, process.countSwitch jmpval = { process with yields := yields } := by
  unfold Process.countSwitch
  split
  · exact ⟨_, rfl⟩
  · exact ⟨process.yields, rfl⟩

-- A jump to a thread goes on before the piece that its environment says.
theorem resume_point (environment : Func × Place) :
    (∀ place, (resume environment).point place = some environment.2.point) ∧ (resume environment).steps ≤ 1 ∧
      (resume environment).unstarted = false ∧ (resume environment).over = false := by
  obtain ⟨func, place'⟩ := environment
  cases place' <;> simp [resume, Control.point, Control.steps, Control.unstarted, Control.over, Place.point]

/-- What an entry of the scheduler comes to. -/
theorem Live.entered {polled : FdSet} {blocking : Blocking} (live : Live inputs process current loc queues)
    (taken : process.schedule inputs polled blocking = some next) :
    ∃ jmpval, process.control = .entry jmpval ∧ (next.control = .returned ∨
      ∃ thread sched yields,
        scheduler inputs.fd jmpval polled blocking process.sched = some (sched, .dispatch thread) ∧
        next = { process with
          sched := sched
          yields := yields
          control := resume (process.heap thread).environment }) := by
  have entered : ∃ jmpval, process.control = .entry jmpval := by
    unfold Process.schedule at taken
    split at taken
    · exact ⟨_, ‹_›⟩
    · cases taken
  obtain ⟨jmpval, control⟩ := entered
  refine ⟨jmpval, control, ?_⟩
  obtain ⟨⟨sched, outcome⟩, ran⟩ := live.scheduled polled blocking control
  obtain ⟨yields, counted⟩ := countSwitch_eq process jmpval
  simp only [Process.schedule, control, ran, counted, Option.some.injEq] at taken
  subst taken
  cases outcome with
  | returned => exact .inl rfl
  | dispatch thread => exact .inr ⟨thread, sched, yields, ran, rfl⟩

theorem Live.scheduleKept {polled : FdSet} {blocking : Blocking} (live : Live inputs process current loc queues)
    (taken : process.schedule inputs polled blocking = some next) (going : next.control ≠ .returned) (func : Func) :
    Threads.soloAt next func = Threads.soloAt process func := by
  obtain ⟨jmpval, control, returned | ⟨thread, sched, yields, ran, rfl⟩⟩ := live.entered taken
  · exact absurd returned going
  obtain ⟨point, -⟩ := resume_point (process.heap thread).environment
  rw [Threads.soloAt, Threads.soloAt, Solo.mk.injEq]
  refine ⟨rfl, rfl, rfl, ?_⟩
  -- before and after, each thread goes on where its environment says
  have before : pointAt process func =
      if func ∈ process.exited then none else some (process.heap func).environment.2.point := by
    rw [pointAt, control]
    split_ifs <;> rfl
  rw [before, pointAt]
  refine if_congr Iff.rfl rfl ?_
  dsimp only
  split_ifs with jumped
  · obtain rfl : thread = func := Option.some.inj ((scheduler_runs ran).symm.trans jumped)
    exact point _
  · rfl

theorem Live.scheduleLess {polled : FdSet} {blocking : Blocking} (live : Live inputs process current loc queues)
    (taken : process.schedule inputs polled blocking = some next) :
    remaining inputs next < remaining inputs process := by
  have kept := live.scheduleKept taken
  obtain ⟨jmpval, control, returned | ⟨thread, sched, yields, -, rfl⟩⟩ := live.entered taken
  · rw [remaining, remaining, returned, live.stands.going]
    simp only [Control.over, Bool.false_eq_true, if_true, if_false]
    omega
  · obtain ⟨-, few, begun, going⟩ := resume_point (process.heap thread).environment
    refine remaining_less live.stands.going (fun func _ => ?_) ?_
    · rw [live.started, piecesLeft, begun, live.active.buffer]
      refine congrArg (Solo.left _ _) (kept (fun returned => ?_) func)
      have going : Control.returned.over = false := by rw [← returned]; exact going
      cases going
    · change _ + (resume (process.heap thread).environment).steps + _ < _ + process.control.steps + _
      have enters : process.control.steps = 2 := by rw [control]; rfl
      dsimp only
      omega

theorem Live.deliverKept {signal : Signal} (live : Live inputs process current loc queues)
    (deliverable : process.deliverable signal = true) (func : Func) :
    Threads.soloAt (process.deliver signal) func = Threads.soloAt process func := by
  have window := live.window deliverable
  have stands := live.stands
  refine live.untaken (live.deliver deliverable) ?_ ⟨rfl, rfl, rfl, rfl, rfl⟩ func
  generalize process.control = control at stands window
  cases stands <;> simp [Control.window] at window <;> rfl

theorem Live.deliverLess {signal : Signal} (live : Live inputs process current loc queues)
    (deliverable : process.deliverable signal = true) :
    remaining inputs (process.deliver signal) < remaining inputs process := by
  have window := live.window deliverable
  have steps := deliver_steps deliverable
  have stands := live.stands
  refine remaining_less stands.going (fun func _ =>
    live.leftSame (live.deliver deliverable) (live.deliverKept deliverable func)) ?_
  have enough : 5 ≤ process.control.steps := by
    generalize process.control = control at stands window
    cases stands <;> simp [Control.window] at window <;> simp [Control.steps]
  change _ + (2 - process.handlers) < _
  omega

theorem arrive_remaining {signal : Signal} (taken : process.arrive signal = some next) :
    remaining inputs next ≤ remaining inputs process := by
  simp only [Process.arrive] at taken
  split_ifs at taken
  · obtain rfl := Option.some.inj taken
    exact Nat.le_refl _
  · cases signal <;> obtain rfl := Option.some.inj taken
    · exact Nat.le_refl _
    · exact Nat.zero_le _

theorem Live.less {label : Label} (live : Live inputs process current loc queues) (ends : AllExit inputs)
    (taken : process.step inputs label = some next) :
    remaining inputs next + label.own.toNat ≤ remaining inputs process := by
  cases label with
  | arrive signal => exact arrive_remaining taken
  | deliver signal =>
    obtain ⟨-, deliverable, rfl⟩ := step_deliver taken
    exact live.deliverLess deliverable
  | next => exact live.nextLess ends taken
  | schedule polled blocking => exact live.scheduleLess taken

-- Before the threads are there.
theorem unset_pieces (unset : process.schedBuf = false) (func : Func) :
    piecesLeft inputs process func = (Solo.start func (inputs.args func)).left func (inputs.results func) := by
  rw [piecesLeft, unset]
  simp

theorem unset_deliver {signal : Signal} (unset : process.schedBuf = false) (going : process.control.over = false)
    (enough : 2 ≤ process.control.steps) (deliverable : process.deliverable signal = true) :
    remaining inputs (process.deliver signal) < remaining inputs process := by
  have steps := deliver_steps deliverable
  refine remaining_less going (fun func _ => ?_) ?_
  · rw [unset_pieces unset, unset_pieces]
    exact unset
  · change _ + (2 - process.handlers) < _
    omega

theorem dead_remaining (going : process.control.over = false) (dead : next.control = .dead) :
    remaining inputs next < remaining inputs process := by
  rw [remaining, remaining, going, dead]
  simp only [Control.over, Bool.false_eq_true, if_true, if_false]
  omega

theorem boot_less {label : Label} (control : process.control = .boot) (unset : process.schedBuf = false)
    (taken : process.step inputs label = some next) :
    remaining inputs next + label.own.toNat ≤ remaining inputs process := by
  have going : process.control.over = false := by rw [control]; rfl
  cases label with
  | arrive signal => exact arrive_remaining taken
  | deliver signal =>
    obtain ⟨-, deliverable, rfl⟩ := step_deliver taken
    exact unset_deliver unset going (by rw [control]; decide) deliverable
  | next =>
    simp only [Process.step, Process.next, control, setMask_base] at taken
    split_ifs at taken with more <;> obtain rfl := Option.some.inj taken
    · refine remaining_less going (fun func _ => ?_) ?_
      · rw [unset_pieces unset, unset_pieces]
        exact unset
      · dsimp only
        rw [control]
        omega
    · refine remaining_less going (fun func _ => ?_) ?_
      · rw [unset_pieces unset, unset_pieces]
        exact unset
      · dsimp only
        rw [control]
        simp [SigSet.unblocked, baseMask, Control.steps]
  | schedule polled blocking => simp [Process.step, Process.schedule, control] at taken

theorem stray_less {label : Label}
    (control : (∃ signo, process.control = .handler signo) ∨ process.control = .leaving)
    (unset : process.schedBuf = false) (taken : process.step inputs label = some next) :
    remaining inputs next + label.own.toNat ≤ remaining inputs process := by
  have going : process.control.over = false := by
    rcases control with ⟨signo, control⟩ | control <;> rw [control] <;> rfl
  cases label with
  | arrive signal => exact arrive_remaining taken
  | deliver signal =>
    obtain ⟨-, deliverable, rfl⟩ := step_deliver taken
    refine unset_deliver unset going ?_ deliverable
    rcases control with ⟨signo, control⟩ | control <;> rw [control] <;> simp [Control.steps]
  | next =>
    rcases control with ⟨signo, control⟩ | control
    · simp only [Process.step, Process.next, control, setMask_base] at taken
      obtain rfl := Option.some.inj taken
      refine remaining_less going (fun func _ => ?_) ?_
      · rw [unset_pieces unset, unset_pieces]
        exact unset
      · dsimp only
        rw [control]
        simp [SigSet.unblocked, baseMask, Control.steps]
    · simp only [Process.step, Process.next, control, unset] at taken
      obtain rfl := Option.some.inj taken
      exact dead_remaining going rfl
  | schedule polled blocking =>
    rcases control with ⟨signo, control⟩ | control <;>
      simp [Process.step, Process.schedule, control] at taken

theorem created_start (fresh : Fresh process) (func : Func) :
    soloAt (process.createThreads inputs) func = Solo.start func (inputs.args func) := by
  obtain ⟨sched, created, -⟩ := initThreads_created inputs.args
  simp only [Process.createThreads, created]
  rw [soloAt, Solo.start, Solo.mk.injEq]
  refine ⟨rfl, ?_, fresh.reads func, ?_⟩
  · rw [printedBy, fresh.output]
    rfl
  · simp only [pointAt, fresh.exited, List.not_mem_nil, if_false]
    split_ifs <;> rfl

theorem setup_less (control : process.control = .setup) (fresh : Fresh process) :
    remaining inputs (process.createThreads inputs) < remaining inputs process := by
  have going : process.control.over = false := by rw [control]; rfl
  have start (func : Func) : soloAt (process.createThreads inputs) func = Solo.start func (inputs.args func) :=
    created_start fresh func
  obtain ⟨sched, created, -⟩ := initThreads_created inputs.args
  simp only [Process.createThreads, created] at start ⊢
  refine remaining_less going (fun func _ => ?_) ?_
  · rw [piecesLeft, piecesLeft, control]
    exact congrArg (Solo.left _ _) (start func)
  · dsimp only
    rw [control]
    simp only [Control.steps]
    omega

/-- Each step of the process leaves it less to do, and a signal that arrives leaves it no more. -/
theorem Phase.less {label : Label} (phase : Phase inputs process) (ends : AllExit inputs)
    (taken : process.step inputs label = some next) :
    remaining inputs next + label.own.toNat ≤ remaining inputs process := by
  have blocked : ∀ signal, process.mask = baseMask → process.step inputs (.deliver signal) ≠ some next := by
    intro signal mask taken
    obtain ⟨-, deliverable, -⟩ := step_deliver taken
    simp [not_deliverable mask] at deliverable
  cases phase with
  | boot control unset _ => exact boot_less control unset taken
  | stray control unset _ _ => exact stray_less control unset taken
  | setup control mask _ fresh =>
    cases label with
    | arrive signal => exact arrive_remaining taken
    | deliver signal => exact absurd taken (blocked signal mask)
    | next =>
      simp only [Process.step, Process.next, control, Option.some.injEq] at taken
      exact taken ▸ setup_less control fresh
    | schedule polled blocking => simp [Process.step, Process.schedule, control] at taken
  | empty control sched mask _ _ =>
    cases label with
    | arrive signal => exact arrive_remaining taken
    | deliver signal => exact absurd taken (blocked signal mask)
    | next => simp [Process.step, Process.next, control] at taken
    | schedule polled blocking =>
      simp only [Process.step, Process.schedule, control, sched, scheduler_empty, Option.some.injEq] at taken
      exact taken ▸ dead_remaining (by rw [control]; rfl) rfl
  | live live => exact live.less ends taken
  | ended control _ =>
    rw [over_step (by rw [control]; rfl)] at taken
    cases taken
  | dead control _ =>
    rw [over_step (by rw [control]; rfl)] at taken
    cases taken

end

end SPHomework.Threads
