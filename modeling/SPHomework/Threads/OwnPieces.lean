import SPHomework.Threads.Fairness

set_option autoImplicit false

/-!
# A thread and its own pieces

Whatever happens between them: after so many of its own pieces a thread in a run is
where it is by itself after as many.
-/

namespace SPHomework.Threads

open Lib

-- The step is a piece of the thread's code.
def ownPiece (func : Func) (process : Process) : Label → Bool
  | .next =>
    match process.control with
    | .code thread _ => decide (thread = func)
    | _ => false
  | _ => false

/-- How many pieces of the thread's code a run has been through. -/
def ownPieces (inputs : Inputs) (func : Func) (memory : Func → Tcb) (labels : List Label) : Nat :=
  occurrences (Process.step inputs) (ownPiece func) (Process.begin memory) labels

section

variable {inputs : Inputs} {process next : Process} {func current : Func} {loc : Loc} {queues : Queues Func}
  {label : Label} {count : Nat}

theorem ownPiece_other (apart : label = .next → ∀ point, process.control ≠ .code func point) :
    ownPiece func process label = false := by
  cases label with
  | next =>
    cases control : process.control with
    | code thread point =>
      refine (congrArg (fun control => ownPiece func { process with control := control } .next) control).trans ?_
      refine decide_eq_false ?_
      rintro rfl
      exact apart rfl point control
    | _ => simp only [ownPiece, control]
  | _ => rfl

theorem Live.followsAt (live : Live inputs process current loc queues) (created : func ∈ createdThreads inputs.args) :
    Follows inputs process func (Threads.soloAt process func) where
  alone := live.soloAt created
  printed := rfl
  reads := rfl
  exited gone := if_pos gone
  stopped stopped := by
    by_cases same : func = current
    · subst same
      exact (live.stands.stopped (live.here.symm.trans stopped)).imp_left live.active.gone
    · by_contra! going
      have point := (live.elsewhere same).symm.trans stopped
      rw [if_neg going.1] at point
      cases point

/-- The thread after so many of its pieces. -/
inductive Paced (inputs : Inputs) (func : Func) (count : Nat) (process : Process) : Prop
  | before (unset : process.schedBuf = false) (none_ : count = 0)
  | live {current : Func} {loc : Loc} {queues : Queues Func} (live : Live inputs process current loc queues)
    (reached : soloAt process func = alone func (inputs.args func) (inputs.results func) count)
  | ended (control : process.control = .returned)
    (follows : Follows inputs process func (alone func (inputs.args func) (inputs.results func) count))

theorem Paced.step (phase : Phase inputs process) (created : func ∈ createdThreads inputs.args)
    (paced : Paced inputs func count process) (taken : process.step inputs label = some next) :
    Paced inputs func (count + (ownPiece func process label).toNat) next := by
  cases paced with
  | before unset none_ =>
    have apart : ∀ point, process.control ≠ .code func point := by
      intro point control
      obtain ⟨_, active⟩ := phase.active_code control
      exact Bool.false_ne_true (unset.symm.trans active.buffer)
    rw [ownPiece_other fun _ => apart, Bool.toNat_false, Nat.add_zero]
    by_cases setup : process.control = .setup
    · cases label with
      | arrive signal => exact .before ((arrive_frame taken).1.trans unset) none_
      | deliver signal =>
        obtain ⟨-, -, rfl⟩ := step_deliver taken
        exact .before unset none_
      | next =>
        simp only [Process.step, Process.next, setup, Option.some.injEq] at taken
        obtain ⟨mask, handlers, fresh⟩ := phase.atSetup setup
        obtain ⟨_, _, _, live, -⟩ := created_live (List.ne_nil_of_mem created) mask handlers fresh
        rw [taken] at live
        refine .live live ?_
        rw [← taken, created_start fresh, none_]
        rfl
      | schedule polled blocking => simp [Process.step, Process.schedule, setup] at taken
    · exact .before ((step_buffer taken setup).trans unset) none_
  | live live reached =>
    by_cases own : label = .next ∧ ∃ point, process.control = .code func point
    · obtain ⟨rfl, point, control⟩ := own
      obtain rfl := live.atCode control
      have stands := live.stands
      rw [control] at stands
      cases stands
      obtain ⟨loc', live'⟩ := live.advances taken
      refine .live live' ?_
      have one : ownPiece func process .next = true := by simp only [ownPiece, control, decide_true]
      rw [live.pieceTaken control taken, reached, one]
      exact (Function.iterate_succ_apply' ..).symm
    have apart : label = .next → ∀ point, process.control ≠ .code func point :=
      fun same point control => own ⟨same, point, control⟩
    rw [ownPiece_other apart, Bool.toNat_false, Nat.add_zero]
    cases label with
    | schedule polled blocking =>
      obtain ⟨_, _, ⟨returned, ended⟩ | ⟨_, _, _, live', -⟩⟩ := live.serves taken
      · obtain ⟨-, reads, output, exited⟩ := schedule_frame taken
        obtain ⟨pieces, printed, same, gone, -⟩ := live.followsAt created
        rw [reached] at pieces printed same gone
        refine .ended returned ⟨pieces, ?_, ?_, fun left => gone (exited ▸ left),
          fun _ => .inl ((ended.exited func).mpr created)⟩
        · rw [printedBy, output, ← printed, printedBy]
        · rw [reads, same]
      · exact .live live' ((live.scheduleKept taken live'.unreturned func).trans reached)
    | _ =>
      obtain ⟨_, live'⟩ := live.step_calm rfl taken
      exact .live live' ((live.calmKept rfl taken apart).trans reached)
  | ended control _ =>
    rw [over_step (by rw [control]; rfl)] at taken
    cases taken

theorem Paced.run {memory : Func → Tcb} {labels : List Label} (created : func ∈ createdThreads inputs.args)
    (ran : Lib.run (Process.step inputs) (Process.begin memory) labels = some process) :
    Phase inputs process ∧ Paced inputs func (ownPieces inputs func memory labels) process := by
  have paced := run_counted (Process.step inputs) (ownPiece func)
    (fun count process => Phase inputs process ∧ Paced inputs func count process)
    (fun _ _ _ _ holds taken => ⟨holds.1.step taken, holds.2.step holds.1 created taken⟩) 0 _ _ labels
    ⟨Phase.begin inputs memory, .before rfl rfl⟩ ran
  rw [Nat.zero_add] at paced
  exact paced

/-- Once the threads are there, only its own pieces count for a thread. -/
theorem run_paced {memory : Func → Tcb} {labels : List Label} (created : func ∈ createdThreads inputs.args)
    (ran : Lib.run (Process.step inputs) (Process.begin memory) labels = some process)
    (started : process.schedBuf = true) :
    Follows inputs process func
      (alone func (inputs.args func) (inputs.results func) (ownPieces inputs func memory labels)) := by
  obtain ⟨-, paced⟩ := Paced.run created ran
  cases paced with
  | before unset => exact absurd (unset.symm.trans started) Bool.false_ne_true
  | live live reached => exact reached ▸ live.followsAt created
  | ended _ follows => exact follows

end

end SPHomework.Threads
