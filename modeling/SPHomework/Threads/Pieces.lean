import SPHomework.Threads.Outputs

set_option autoImplicit false

/-!
# A run for every piece

A thread that is the only one, in a run without signals, goes through its own
pieces one after the other. So what it prints by itself is printed in some run.
-/

namespace SPHomework.Threads

open Lib

/-- What `thread_yield` without a signal leaves as it is. -/
structure Calm (func : Func) (before after : Process) : Prop where
  sched : after.sched = before.sched
  pending : after.pending = before.pending
  output : after.output = before.output
  reads : after.reads = before.reads
  vars : (after.heap func).toVars = (before.heap func).toVars

theorem Calm.trans {func : Func} {first second third : Process} (one : Calm func first second)
    (two : Calm func second third) : Calm func first third :=
  ⟨two.sched.trans one.sched, two.pending.trans one.pending, two.output.trans one.output,
    two.reads.trans one.reads, two.vars.trans one.vars⟩

section

variable (inputs : Inputs) {process : Process} {func : Func}

theorem setMask_calm (pending : process.pending = emptySet) (mask : SigSet) (control : Control) :
    process.setMask mask control = { process with mask := mask, control := control } := by
  simp [Process.setMask, Process.deliverable, pending, emptySet, SigSet.has]

theorem calm_ending (control : process.control = .ending func .yield) (runs : running process.sched = some func) :
    ∃ next, process.step inputs .next = some next ∧ next.control = .yielding func ∧ Calm func process next := by
  have taken : process.step inputs .next = some (process.runMacro func func .yield) := by
    simp only [Process.step, Process.next, control, runs]
  refine ⟨_, taken, rfl, rfl, rfl, rfl, rfl, ?_⟩
  simp [Process.runMacro, Process.setEnvironment]

-- A window in which no signal is pending.
theorem calm_window (func : Func) {mask : SigSet} {there : Control} (pending : process.pending = emptySet)
    (taken : process.step inputs .next = some (process.setMask mask there)) :
    ∃ next, process.step inputs .next = some next ∧ next.control = there ∧ Calm func process next := by
  rw [setMask_calm pending] at taken
  exact ⟨_, taken, rfl, rfl, rfl, rfl, rfl, rfl⟩

theorem calm_finish (control : process.control = .secondWindow func) :
    ∃ next, process.step inputs .next = some next ∧ next.control = .code func .next ∧ Calm func process next := by
  have taken : process.step inputs .next = some (process.finishYield func) := by
    simp only [Process.step, Process.next, control]
  rw [Process.finishYield, setMask_base] at taken
  exact ⟨_, taken, rfl, rfl, rfl, rfl, rfl, rfl⟩

/-- The four steps of `thread_yield` go on with the loop. -/
theorem calm_yield (control : process.control = .ending func .yield) (runs : running process.sched = some func)
    (pending : process.pending = emptySet) :
    ∃ next, run (Process.step inputs) process (Label.steps 4) = some next ∧
      next.control = .code func .next ∧ Calm func process next := by
  obtain ⟨first, taken, control, calm⟩ := calm_ending inputs control runs
  have toFirst : first.step inputs .next = some (first.setMask alrmMask (.firstWindow func)) := by
    simp only [Process.step, Process.next, control]
  obtain ⟨second, taken', control, calm'⟩ :=
    calm_window inputs func (calm.pending.trans pending) toFirst
  have calm := calm.trans calm'
  have toSecond : second.step inputs .next = some (second.setMask tstpMask (.secondWindow func)) := by
    simp only [Process.step, Process.next, control]
  obtain ⟨third, taken'', control, calm'⟩ :=
    calm_window inputs func (calm.pending.trans pending) toSecond
  have calm := calm.trans calm'
  obtain ⟨last, finished, control, calm'⟩ := calm_finish inputs control
  refine ⟨last, ?_, control, calm.trans calm'⟩
  exact (run_cons ..).mpr ⟨first, taken, (run_cons ..).mpr ⟨second, taken', (run_cons ..).mpr
    ⟨third, taken'', (run_cons ..).mpr ⟨last, finished, rfl⟩⟩⟩⟩

/-- The thread is about to run its next piece, and no signal is pending. -/
structure Poised (process : Process) (func : Func) (solo : Solo) : Prop where
  running : running process.sched = some func
  pending : process.pending = emptySet
  control : ∃ point, process.control = .code func point ∧ solo.point = some point
  vars : (process.heap func).toVars = solo.vars
  reads : process.reads func = solo.reads
  printed : printedBy process func = solo.values

-- The piece itself, up to the macro.
theorem Poised.piece {solo : Solo} {point : Point} {vars : Vars} {value : Option Int} {act : Act}
    (poised : Poised process func solo) (here : solo.point = some point) (id : vars.id = func.id)
    (ran : code func (inputs.results func solo.reads) point solo.vars = some (vars, value, act)) :
    ∃ next, process.step inputs .next = some next ∧ next.control = .ending func act ∧
      next.sched = process.sched ∧ next.pending = process.pending ∧
      (next.heap func).toVars = (solo.advance func (inputs.results func)).vars ∧
      next.reads func = (solo.advance func (inputs.results func)).reads ∧
      printedBy next func = (solo.advance func (inputs.results func)).values := by
  obtain ⟨point', control, same⟩ := poised.control
  obtain rfl : point' = point := Option.some.inj (same.symm.trans here)
  have taken : process.step inputs .next = process.runCode inputs func point' func := by
    simp only [Process.step, Process.next, control, poised.running]
  rw [Process.runCode, poised.reads, poised.vars, ran, Option.map_some] at taken
  rw [advance_eq here ran]
  refine ⟨_, taken, rfl, rfl, rfl, ?_, ?_, ?_⟩
  · simp
  · simp only
    split
    · exact Function.update_self ..
    · exact poised.reads
  · change valuesOf func (process.output ++ value.toList.map fun value => (vars.id, value)) = _
    rw [id, valuesOf_append, if_pos rfl, ← poised.printed]
    rfl

theorem advance_next {results : Nat → List UInt8} {solo : Solo} {point : Point} (here : solo.point = some point)
    (goes : (solo.advance func results).point = some .next) :
    ∃ vars value, code func (results solo.reads) point solo.vars = some (vars, value, .yield) := by
  cases ran : code func (results solo.reads) point solo.vars with
  | none =>
    -- no code after a read, which is not where the thread goes on
    rw [Solo.advance, here] at goes
    simp only [ran] at goes
    obtain rfl := Option.some.inj (here.symm.trans goes)
    cases ran
  | some effect =>
    obtain ⟨vars, value, act⟩ := effect
    rw [advance_eq here ran] at goes
    cases act with
    | yield => exact ⟨vars, value, rfl⟩
    | asyncRead => cases goes
    | exit => cases goes

theorem Poised.advance {solo : Solo} (poised : Poised process func solo) (id : solo.vars.id = func.id)
    (goes : (solo.advance func (inputs.results func)).point = some .next) :
    ∃ next, run (Process.step inputs) process (Label.steps 5) = some next ∧
      Poised next func (solo.advance func (inputs.results func)) := by
  obtain ⟨point, _, here⟩ := poised.control
  obtain ⟨vars, value, ran⟩ := advance_next here goes
  obtain ⟨middle, taken, control, sched, pending, vars', reads, printed⟩ :=
    poised.piece inputs here ((code_id ran).trans id) ran
  obtain ⟨next, ran', control', calm⟩ :=
    calm_yield inputs control (sched ▸ poised.running) (pending.trans poised.pending)
  refine ⟨next, (run_cons ..).mpr ⟨middle, taken, ran'⟩, ?_⟩
  constructor
  · rw [calm.sched, sched]
    exact poised.running
  · exact calm.pending.trans (pending.trans poised.pending)
  · exact ⟨.next, control', goes⟩
  · exact calm.vars.trans vars'
  · rw [calm.reads, reads]
  · rw [printedBy, calm.output]
    exact printed

/-- The run in which `func` is the only thread, up to a piece before which it does not read or exit. -/
theorem exists_poised (memory : Func → Tcb) (only : createdThreads inputs.args = [func]) (pieces : Nat)
    (goes : ∀ count < pieces,
      (alone func (inputs.args func) (inputs.results func) (count + 1)).point = some .next) :
    ∃ labels process, run (Process.step inputs) (Process.begin memory) labels = some process ∧
      Poised process func (alone func (inputs.args func) (inputs.results func) pieces) := by
  induction pieces with
  | zero =>
    obtain ⟨sched, made, first, nobody⟩ : ∃ sched, initThreads (createdThreads inputs.args) = some sched ∧
        sched.readyQueue 0 = some func ∧ sched.wqSize = 0 := by
      rw [only]
      exact ⟨_, rfl, rfl, rfl⟩
    have setup := run_begun inputs memory made
    have enters := begun_schedule inputs memory (fun _ => false) .all nobody first
    exact ⟨_, _, run_snoc setup enters, first, rfl, ⟨.start, rfl, rfl⟩, rfl, rfl, rfl⟩
  | succ pieces ih =>
    obtain ⟨labels, process, ran, poised⟩ := ih fun count less => goes count (by omega)
    have point := goes pieces (Nat.lt_succ_self pieces)
    rw [alone_succ] at point ⊢
    obtain ⟨next, ran', poised'⟩ := poised.advance inputs (alone_id ..) point
    exact ⟨labels ++ Label.steps 5, next, (run_append ..).mpr ⟨process, ran, ran'⟩, poised'⟩

/-- And one piece more, whatever it ends with. -/
theorem exists_printed (memory : Func → Tcb) (only : createdThreads inputs.args = [func]) (pieces : Nat)
    (goes : ∀ count < pieces,
      (alone func (inputs.args func) (inputs.results func) (count + 1)).point = some .next) :
    ∃ labels process, run (Process.step inputs) (Process.begin memory) labels = some process ∧
      printedBy process func = (alone func (inputs.args func) (inputs.results func) (pieces + 1)).values := by
  obtain ⟨labels, process, ran, poised⟩ := exists_poised inputs memory only pieces goes
  obtain ⟨point, _, here⟩ := poised.control
  have other : point ≠ .read := by
    rintro rfl
    cases pieces with
    | zero => cases here
    | succ pieces => cases here.symm.trans (goes pieces (Nat.lt_succ_self pieces))
  obtain ⟨⟨vars, value, act⟩, code⟩ : ∃ effect, code func
      (inputs.results func (alone func (inputs.args func) (inputs.results func) pieces).reads) point
      (alone func (inputs.args func) (inputs.results func) pieces).vars = some effect := by
    cases point with
    | start => exact ⟨_, rfl⟩
    | next => exact ⟨_, rfl⟩
    | read => exact absurd rfl other
  obtain ⟨next, taken, _, _, _, _, _, printed⟩ :=
    poised.piece inputs here ((code_id code).trans (alone_id ..)) code
  exact ⟨labels ++ [.next], next, run_snoc ran taken, by rw [alone_succ]; exact printed⟩

end

end SPHomework.Threads
