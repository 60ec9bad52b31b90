import SPHomework.Threads.Conservation
import SPHomework.Threads.Process

set_option autoImplicit false

/-!
# Where each thread is

A thread that has been created runs its code, is somewhere in a macro, is
suspended or has exited. Wherever it is, its control block, its output and its
reads are those of the thread by itself.
-/

namespace SPHomework.Threads

inductive Loc where
  | code (point : Point)
  | ending (act : Act)
  | yielding
  | firstWindow
  | secondWindow
  | resumed
  -- in `sighandler`, and until the scheduler is done
  | caught
  | suspended (place : Place)
  | gone
  deriving DecidableEq

def Loc.point : Loc → Option Point
  | .code point => some point
  | .ending act => act.point
  | .suspended place => some place.point
  | .gone => none
  | _ => some .next

-- What its environment has been set to, where that still matters.
def Loc.place : Loc → Option Place
  | .yielding => some .yield
  | .firstWindow => some .yield
  | .secondWindow => some .yield
  | .caught => some .yield
  | .suspended place => some place
  | _ => none

namespace Yielding

/-- Over: there was one switch at most, one if a signal was pending at the start, and SIGTSTP came
first if both were. -/
structure Done (yielding : Yielding) : Prop where
  finished : yielding.finished = true
  switches : yielding.switches = yielding.served.length
  single : yielding.served.length ≤ 1
  pending : ∀ signal, yielding.atStart.has signal = true → yielding.served.length = 1
  both : yielding.atStart = baseMask → yielding.served = [.tstp]

structure Open (pending : SigSet) (yielding : Yielding) : Prop where
  going : yielding.finished = false
  served : yielding.served = []
  switches : yielding.switches = 0
  pending : ∀ signal, yielding.atStart.has signal = true → pending.has signal = true

structure Caught (switches : Nat) (yielding : Yielding) : Prop where
  going : yielding.finished = false
  served : yielding.served.length = 1
  switches : yielding.switches = switches
  both : yielding.atStart = baseMask → yielding.served = [.tstp]

end Yielding

-- What is known of the latest execution of `thread_yield`, unless all are over.
def Loc.current (pending : SigSet) : Loc → Option (Yielding → Prop)
  | .yielding => some (Yielding.Open pending)
  | .firstWindow => some fun current => current.Open pending ∧ current.atStart.tstp = false
  | .secondWindow => some fun current =>
    current.Open pending ∧ current.atStart.tstp = false ∧ current.atStart.alrm = false
  | .caught => some (Yielding.Caught 0)
  | .resumed => some (Yielding.Caught 1)
  | .suspended .yield => some (Yielding.Caught 1)
  | _ => none

def Recorded : Option (Yielding → Prop) → List Yielding → Prop
  | none, yields => ∀ yielding ∈ yields, yielding.Done
  | some known, yields => ∃ current rest, yields = current :: rest ∧ known current ∧
    ∀ yielding ∈ rest, yielding.Done

-- The values in the lines with the id of the thread.
def valuesOf (func : Func) (output : List (Int × Int)) : List Int :=
  (output.filter fun line => line.1 = func.id).map Prod.snd

def printedBy (process : Process) (func : Func) : List Int := valuesOf func process.output

structure At (inputs : Inputs) (process : Process) (func : Func) (loc : Loc) : Prop where
  tracked : ∃ pieces, alone func (inputs.args func) (inputs.results func) pieces =
    ⟨(process.heap func).toVars, printedBy process func, process.reads func, loc.point⟩
  environment : ∀ place, loc.place = some place → (process.heap func).environment = (func, place)
  recorded : Recorded (loc.current process.pending) (process.yields func)

/-- `RUNNING` is the thread whose code runs; the others in the queues are suspended. -/
structure Active (inputs : Inputs) (process : Process) (func : Func) (loc : Loc) (queues : Queues Func) : Prop where
  buffer : process.schedBuf = true
  refines : Refines process.sched queues
  valid : queues.current < queues.ready.length
  running : queues.ready[queues.current] = func
  distinct : queues.threads.Nodup
  created : ∀ thread ∈ queues.threads, thread ∈ createdThreads inputs.args
  left : ∀ thread ∈ createdThreads inputs.args, thread ∈ queues.threads ∨ thread ∈ process.exited
  here : At inputs process func loc
  others : ∀ thread ∈ queues.threads, thread ≠ func → ∃ place, At inputs process thread (.suspended place)
  gone : loc = .gone → func ∈ process.exited
  live : ∀ thread ∈ queues.threads, thread ∈ process.exited → thread = func ∧ loc = .gone
  exited : ∀ thread ∈ process.exited, thread ∈ createdThreads inputs.args ∧ At inputs process thread .gone
  absent : ∀ thread, thread ∉ createdThreads inputs.args →
    printedBy process thread = [] ∧ process.yields thread = []

theorem id_injective (func other : Func) (same : func.id = other.id) : func = other := by
  cases func <;> cases other <;> first | rfl | exact absurd same (by decide)

theorem code_id {func : Func} {bytes : List UInt8} {point : Point} {vars after : Vars} {value : Option Int}
    {act : Act} (ran : code func bytes point vars = some (after, value, act)) : after.id = vars.id := by
  have kept : ∀ vars, (body func vars).1.id = vars.id := by
    intro vars
    cases func <;> simp only [body, fibonacci, collatz, maxSubarray] <;> split_ifs <;> rfl
  cases point with
  | start =>
    rw [← kept { vars with i := 1 }, Option.some.inj ran]
  | next =>
    rw [← kept { vars with i := int32 (vars.i + 1) }, Option.some.inj ran]
  | read =>
    simp only [code] at ran
    split_ifs at ran
    obtain ⟨rfl, -⟩ := Prod.mk.inj (Option.some.inj ran)
    split_ifs <;> rfl

theorem alone_id (func : Func) (arg : Int) (results : Nat → List UInt8) (pieces : Nat) :
    (alone func arg results pieces).vars.id = func.id :=
  alone_vars func arg results (fun vars => vars.id = func.id) rfl
    (fun _ _ _ _ _ _ same ran => (code_id ran).trans same) pieces

section

variable {inputs : Inputs} {process next : Process} {func : Func} {loc loc' : Loc} {queues : Queues Func}

theorem At.id (at_ : At inputs process func loc) : (process.heap func).id = func.id := by
  obtain ⟨pieces, same⟩ := at_.tracked
  have kept := alone_id func (inputs.args func) (inputs.results func) pieces
  rw [same] at kept
  exact kept

-- Nothing of the thread has changed.
structure Aside (process next : Process) (thread : Func) : Prop where
  heap : next.heap thread = process.heap thread
  output : printedBy next thread = printedBy process thread
  reads : next.reads thread = process.reads thread
  yields : next.yields thread = process.yields thread

theorem At.moved (at_ : At inputs process func loc)
    (vars : (next.heap func).toVars = (process.heap func).toVars)
    (output : printedBy next func = printedBy process func) (reads : next.reads func = process.reads func)
    (point : loc'.point = loc.point)
    (environment : ∀ place, loc'.place = some place → (next.heap func).environment = (func, place))
    (recorded : Recorded (loc'.current next.pending) (next.yields func)) : At inputs next func loc' := by
  refine ⟨?_, environment, recorded⟩
  rw [vars, output, reads, point]
  exact at_.tracked

theorem At.aside (at_ : At inputs process func loc) (aside : Aside process next func)
    (recorded : Recorded (loc.current process.pending) (process.yields func) →
      Recorded (loc.current next.pending) (process.yields func)) : At inputs next func loc := by
  refine at_.moved (congrArg Tcb.toVars aside.heap) aside.output aside.reads rfl ?_ ?_
  · rw [aside.heap]
    exact at_.environment
  · rw [aside.yields]
    exact recorded at_.recorded

theorem At.suspended {place : Place} (at_ : At inputs process func (.suspended place))
    (aside : Aside process next func) : At inputs next func (.suspended place) := by
  refine at_.aside aside ?_
  cases place <;> exact fun known => known

theorem At.gone (at_ : At inputs process func .gone) (aside : Aside process next func) :
    At inputs next func .gone := at_.aside aside fun known => known

-- The running thread moves on, and nothing else does.
theorem Active.move (active : Active inputs process func loc queues) (alive : loc ≠ .gone)
    (sched : next.sched = process.sched) (buffer : next.schedBuf = process.schedBuf)
    (exited : next.exited = process.exited ∧ loc' ≠ .gone ∨
      next.exited = func :: process.exited ∧ loc' = .gone)
    (aside : ∀ thread, thread ≠ func → Aside process next thread) (here : At inputs next func loc') :
    Active inputs next func loc' queues := by
  have member : func ∈ queues.threads := by
    rw [← active.running]
    exact List.mem_append_left _ (List.getElem_mem _)
  have apart : ∀ thread ∈ process.exited, thread ≠ func := by
    rintro thread gone rfl
    exact alive (active.live thread member gone).2
  refine ⟨buffer.trans active.buffer, sched ▸ active.refines, active.valid, active.running, active.distinct,
    active.created, ?_, here, ?_, ?_, ?_, ?_, ?_⟩
  · intro thread created
    refine (active.left thread created).imp_right fun gone => ?_
    rcases exited with ⟨same, -⟩ | ⟨more, -⟩
    · exact same ▸ gone
    · exact more ▸ List.mem_cons_of_mem _ gone
  · intro thread inside other
    obtain ⟨place, at_⟩ := active.others thread inside other
    exact ⟨place, at_.suspended (aside thread other)⟩
  · intro last
    rcases exited with ⟨-, other⟩ | ⟨more, -⟩
    · exact absurd last other
    · exact more ▸ List.mem_cons_self
  · intro thread inside gone
    rcases exited with ⟨same, -⟩ | ⟨more, last⟩
    · have known := active.live thread inside (same ▸ gone)
      exact absurd known.2 alive
    · rw [more] at gone
      rcases List.mem_cons.mp gone with rfl | before
      · exact ⟨rfl, last⟩
      · exact absurd (active.live thread inside before).2 alive
  · intro thread gone
    have known : thread ∈ process.exited ∨ thread = func ∧ loc' = .gone := by
      rcases exited with ⟨same, -⟩ | ⟨more, last⟩
      · exact .inl (same ▸ gone)
      · rw [more] at gone
        exact (List.mem_cons.mp gone).symm.imp_right fun same => ⟨same, last⟩
    rcases known with before | ⟨rfl, rfl⟩
    · obtain ⟨created, at_⟩ := active.exited thread before
      exact ⟨created, at_.gone (aside thread (apart thread before))⟩
    · exact ⟨active.created thread member, here⟩
  · intro thread absent
    have other : thread ≠ func := by
      rintro rfl
      exact absent (active.created thread member)
    rw [(aside thread other).output, (aside thread other).yields]
    exact active.absent thread absent

theorem Active.runs (active : Active inputs process func loc queues) :
    Threads.running process.sched = some func := by
  rw [running_refines active.refines active.valid, active.running]

theorem valuesOf_append (func thread : Func) (output : List (Int × Int)) (value : Option Int) :
    valuesOf func (output ++ value.toList.map fun value => (thread.id, value)) =
      valuesOf func output ++ if func = thread then value.toList else [] := by
  by_cases same : func = thread
  · subst same
    cases value <;> simp [valuesOf]
  · have apart : ¬ thread.id = func.id := fun equal => same (id_injective _ _ equal.symm)
    cases value <;> simp [valuesOf, same, apart]

/-- A piece of code is a piece of the thread by itself. -/
theorem Active.code {point : Point} (active : Active inputs process func (.code point) queues)
    (ran : process.runCode inputs func point func = some next) :
    ∃ act, Active inputs next func (.ending act) queues ∧ next.control = .ending func act ∧
      next.mask = process.mask ∧ next.handlers = process.handlers := by
  obtain ⟨⟨vars, value, act⟩, code, rfl⟩ := Option.map_eq_some_iff.mp ran
  have id : vars.id = func.id := (code_id code).trans active.here.id
  refine ⟨act, active.move (by simp) rfl rfl (.inl ⟨rfl, by simp⟩) ?_ ?_, rfl, rfl, rfl⟩
  · intro thread other
    refine ⟨Function.update_of_ne other _ _, ?_, ?_, rfl⟩
    · change valuesOf thread (process.output ++ value.toList.map fun value => (vars.id, value)) = _
      rw [id, valuesOf_append, if_neg other, List.append_nil]
      rfl
    · change (if point = .read then _ else _ : Func → Nat) thread = process.reads thread
      split_ifs
      · exact Function.update_of_ne other _ _
      · rfl
  · obtain ⟨pieces, same⟩ := active.here.tracked
    refine ⟨⟨pieces + 1, ?_⟩, (fun place none_ => by cases none_), active.here.recorded⟩
    have printed : valuesOf func (process.output ++ value.toList.map fun value => (vars.id, value)) =
        printedBy process func ++ value.toList := by
      rw [id, valuesOf_append, if_pos rfl]
      rfl
    rw [alone_succ, same]
    simp only [Solo.advance, Loc.point, code, Function.update_self]
    rw [Solo.mk.injEq]
    refine ⟨rfl, printed.symm, ?_, rfl⟩
    split_ifs
    · rw [Function.update_self]
    · rfl

-- What the three macros leave for the scheduler, or for the windows.
theorem Active.macroStep {act : Act} (active : Active inputs process func (.ending act) queues) :
    (act = .yield → Active inputs (process.runMacro func func act) func .yielding queues ∧
      (process.runMacro func func act).control = .yielding func) ∧
    (act = .asyncRead → Active inputs (process.runMacro func func act) func (.suspended .asyncRead) queues ∧
      (process.runMacro func func act).control = .entry .asyncRead) ∧
    (act = .exit → Active inputs (process.runMacro func func act) func .gone queues ∧
      (process.runMacro func func act).control = .entry .exit) := by
  refine ⟨?_, ?_, ?_⟩
  · rintro rfl
    refine ⟨active.move (by simp) rfl rfl (.inl ⟨rfl, by simp⟩) ?_
      (active.here.moved ?_ rfl rfl rfl ?_ ?_), rfl⟩
    · intro thread other
      exact ⟨Function.update_of_ne other _ _, rfl, rfl, Function.update_of_ne other _ _⟩
    · simp [Process.runMacro, Process.setEnvironment]
    · rintro place same
      obtain rfl := Option.some.inj same
      simp [Process.runMacro, Process.setEnvironment]
    · refine ⟨⟨process.pending, [], 0, false⟩, process.yields func, by simp [Process.runMacro],
        ⟨rfl, rfl, rfl, fun signal pending => pending⟩, active.here.recorded⟩
  · rintro rfl
    refine ⟨active.move (by simp) rfl rfl (.inl ⟨rfl, by simp⟩) ?_
      (active.here.moved ?_ rfl rfl rfl ?_ active.here.recorded), rfl⟩
    · intro thread other
      exact ⟨Function.update_of_ne other _ _, rfl, rfl, rfl⟩
    · simp [Process.runMacro, Process.setEnvironment, Process.go]
    · rintro place same
      obtain rfl := Option.some.inj same
      simp [Process.runMacro, Process.setEnvironment, Process.go]
  · rintro rfl
    refine ⟨active.move (by simp) rfl rfl (.inr ⟨rfl, rfl⟩) ?_
      (active.here.moved rfl rfl rfl rfl ?_ active.here.recorded), rfl⟩
    · exact fun thread other => ⟨rfl, rfl, rfl, rfl⟩
    · exact fun place none_ => by cases none_

end

end SPHomework.Threads
