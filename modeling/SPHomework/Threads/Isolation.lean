import SPHomework.Threads.Phases

set_option autoImplicit false

/-!
# Threads do not disturb each other

In every state of every run each thread has printed what it prints by itself up
to some point, and all of it once it has exited.
-/

namespace SPHomework.Threads

open Lib

/-- After some of its pieces the thread by itself has printed this, and it has exited if the thread
in the run has. -/
def Alone (inputs : Inputs) (process : Process) (func : Func) : Prop :=
  ∃ pieces, printedBy process func = (alone func (inputs.args func) (inputs.results func) pieces).values ∧
    (func ∈ process.exited → (alone func (inputs.args func) (inputs.results func) pieces).point = none)

section

variable {inputs : Inputs} {process : Process} {func : Func} {loc : Loc}

/-- A created thread in a run is where it is by itself after some of its pieces. -/
structure Follows (inputs : Inputs) (process : Process) (func : Func) (solo : Solo) : Prop where
  alone : ∃ pieces, alone func (inputs.args func) (inputs.results func) pieces = solo
  printed : printedBy process func = solo.values
  reads : process.reads func = solo.reads
  exited : func ∈ process.exited → solo.point = none
  stopped : solo.point = none → func ∈ process.exited ∨ process.control = .ending func .exit

theorem At.follows (at_ : At inputs process func loc) (gone : func ∈ process.exited → loc = .gone)
    (stopped : loc.point = none → func ∈ process.exited ∨ process.control = .ending func .exit) :
    Follows inputs process func
      ⟨(process.heap func).toVars, printedBy process func, process.reads func, loc.point⟩ :=
  ⟨at_.tracked, rfl, rfl, fun exited => by rw [gone exited]; rfl, stopped⟩

theorem Fresh.follows (fresh : Fresh process) :
    Follows inputs process func (Solo.start func (inputs.args func)) := by
  refine ⟨⟨0, rfl⟩, ?_, fresh.reads func, fun exited => ?_, fun stopped => by cases stopped⟩
  · rw [printedBy, fresh.output]
    rfl
  · rw [fresh.exited] at exited
    cases exited

theorem Stands.stopped {control : Control} (stands : Stands func control loc) (stopped : loc.point = none) :
    loc = .gone ∨ control = .ending func .exit := by
  cases stands with
  | ending act =>
    cases act with
    | exit => exact .inr rfl
    | _ => cases stopped
  | exit => exact .inl rfl
  | code point => cases stopped
  | _ => cases stopped

theorem Live.follows {current : Func} {queues : Queues Func} (live : Live inputs process current loc queues)
    (created : func ∈ createdThreads inputs.args) : ∃ solo, Follows inputs process func solo := by
  obtain ⟨stands, active, -⟩ := live
  rcases active.left func created with inside | exited
  · have last := active.live func inside
    by_cases same : func = current
    · subst same
      refine ⟨_, active.here.follows (fun exited => (last exited).2) fun stopped => ?_⟩
      exact (stands.stopped stopped).imp_left active.gone
    · obtain ⟨place, at_⟩ := active.others func inside same
      exact ⟨_, at_.follows (fun exited => absurd (last exited).1 same) fun stopped => by cases stopped⟩
  · exact ⟨_, (active.exited func exited).2.follows (fun _ => rfl) fun _ => .inl exited⟩

theorem Phase.follows (phase : Phase inputs process) (created : func ∈ createdThreads inputs.args) :
    ∃ solo, Follows inputs process func solo := by
  rcases phase.stage with fresh | ⟨_, _, _, live⟩ | ⟨-, exited, gone, -⟩
  · exact ⟨_, fresh.follows⟩
  · exact live.follows created
  · have done := (exited func).mpr created
    exact ⟨_, (gone func done).follows (fun _ => rfl) fun _ => .inl done⟩

-- Of a thread that is not created there is nothing.
theorem Phase.uncreated (phase : Phase inputs process) (absent : func ∉ createdThreads inputs.args) :
    printedBy process func = [] ∧ func ∉ process.exited := by
  rcases phase.stage with fresh | ⟨_, _, _, live⟩ | ⟨-, exited, -, unused⟩
  · rw [printedBy, fresh.output, fresh.exited]
    exact ⟨rfl, List.not_mem_nil⟩
  · exact ⟨(live.active.absent func absent).1, fun gone => absent (live.active.exited func gone).1⟩
  · exact ⟨(unused func absent).1, fun gone => absent ((exited func).mp gone)⟩

theorem Phase.alone (phase : Phase inputs process) : Alone inputs process func := by
  by_cases created : func ∈ createdThreads inputs.args
  · obtain ⟨_, ⟨pieces, rfl⟩, printed, -, exited, -⟩ := phase.follows created
    exact ⟨pieces, printed, exited⟩
  · obtain ⟨printed, stays⟩ := phase.uncreated created
    exact ⟨0, printed, fun exited => absurd exited stays⟩

end

def memory0 (func : Func) : Tcb := ⟨setupVars func 0, (func, .setup)⟩

def aloneInputs : Inputs where
  args func := if func = .fibonacci then 2 else -1
  results _ _ := []
  fd _ := 3

end SPHomework.Threads
