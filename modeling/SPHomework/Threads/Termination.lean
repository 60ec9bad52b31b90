import SPHomework.Threads.Remaining

set_option autoImplicit false

/-!
# The end of a run

The process can always go on until it is over. So it comes to its end exactly when
each of its threads does by itself, and all of them have printed all they print.
-/

namespace SPHomework.Threads

open Lib

-- Only `max_subarray` gets to a read.
theorem alone_reads (func : Func) (arg : Int) (results : Nat → List UInt8) (pieces : Nat)
    (reading : (alone func arg results pieces).point = some .read) : func = .maxSubarray := by
  have stage : ∀ pieces, (alone func arg results pieces).point = some .read → func = .maxSubarray := by
    refine alone_stage func arg results (fun _ solo => solo.point = some .read → func = .maxSubarray)
      (fun start => by cases start) fun _ solo before reading => ?_
    unfold Solo.advance at reading
    split at reading
    · exact before reading
    · rename_i point here
      split at reading
      · exact before reading
      · rename_i vars value act ran
        obtain rfl : act = .asyncRead := by cases act <;> first | rfl | cases reading
        cases func with
        | maxSubarray => rfl
        | fibonacci =>
          cases point <;> simp only [code, body, fibonacci, reduceCtorEq, if_false, Option.some.injEq] at ran
          all_goals
            obtain ⟨-, -, ended⟩ : _ ∧ _ ∧ _ := by simpa only [Prod.mk.injEq] using ran
            split_ifs at ended
        | collatz =>
          cases point <;> simp only [code, body, collatz, reduceCtorEq, if_false, Option.some.injEq] at ran
          all_goals
            obtain ⟨-, -, ended⟩ : _ ∧ _ ∧ _ := by simpa only [Prod.mk.injEq] using ran
            split_ifs at ended
  exact stage pieces reading

section

variable {inputs : Inputs} {process next : Process} {func current : Func} {loc : Loc} {queues : Queues Func}

theorem Live.next_some (live : Live inputs process func loc queues) :
    (∃ next, process.next inputs = some next) ∨ ∃ jmpval, process.control = .entry jmpval := by
  have stands := live.stands
  have runs := live.active.runs
  generalize control : process.control = here at stands
  cases stands with
  | code point =>
    left
    obtain ⟨pieces, tracked⟩ := live.active.here.tracked
    simp only [Process.next, control, runs, Process.runCode]
    cases point with
    | start => exact ⟨_, rfl⟩
    | next => exact ⟨_, rfl⟩
    | read =>
      obtain rfl : func = .maxSubarray :=
        alone_reads func (inputs.args func) (inputs.results func) pieces (by rw [tracked]; rfl)
      exact ⟨_, rfl⟩
  | ending act => exact .inl ⟨_, by simp only [Process.next, control, runs]; rfl⟩
  | yielding => exact .inl ⟨_, by simp only [Process.next, control]; rfl⟩
  | firstWindow => exact .inl ⟨_, by simp only [Process.next, control]; rfl⟩
  | secondWindow => exact .inl ⟨_, by simp only [Process.next, control]; rfl⟩
  | resumed => exact .inl ⟨_, by simp only [Process.next, control]; rfl⟩
  | handler signo => exact .inl ⟨_, by simp only [Process.next, control]; rfl⟩
  | leaving =>
    left
    simp only [Process.next, control]
    split_ifs <;> exact ⟨_, rfl⟩
  | _ => exact .inr ⟨_, rfl⟩

/-- Until it is over, the process has a step of its own to take. -/
theorem Phase.goes_on (phase : Phase inputs process) (going : process.control.over = false) :
    (∃ next, process.next inputs = some next) ∨ ∃ jmpval, process.control = .entry jmpval := by
  cases phase with
  | boot control _ _ =>
    left
    simp only [Process.next, control]
    split_ifs <;> exact ⟨_, rfl⟩
  | stray control _ _ _ =>
    left
    rcases control with ⟨signo, control⟩ | control <;> simp only [Process.next, control]
    · exact ⟨_, rfl⟩
    · split_ifs <;> exact ⟨_, rfl⟩
  | setup control _ _ _ => exact .inl ⟨_, by simp only [Process.next, control]; rfl⟩
  | empty control _ _ _ _ => exact .inr ⟨_, control⟩
  | live live => exact live.next_some
  | ended control _ => simp [control, Control.over] at going
  | dead control _ => simp [control, Control.over] at going

-- With one that `select` may answer as it likes.
theorem Phase.own_step (phase : Phase inputs process) (going : process.control.over = false) :
    ∃ label next, label.own = true ∧ process.step inputs label = some next := by
  rcases phase.goes_on going with ⟨next, taken⟩ | ⟨jmpval, control⟩
  · exact ⟨.next, next, rfl, taken⟩
  · exact ⟨.schedule (fun _ => false) .all, (process.countSwitch jmpval).leave
      (scheduler inputs.fd jmpval (fun _ => false) .all process.sched), rfl,
      by simp only [Process.step, Process.schedule, control]⟩

/-- From the first piece on, a run ends with the return of the scheduler and no other way. -/
theorem Live.going_on {label : Label} (live : Live inputs process current loc queues)
    (taken : process.step inputs label = some next) :
    (∃ func loc queues, Live inputs next func loc queues) ∨ next.control = .returned ∧ Ended inputs next := by
  cases label with
  | arrive signal =>
    obtain rfl := arrive_installed live.handlers taken
    exact .inl ⟨_, _, _, live.stands, live.active.stays rfl rfl rfl (fun thread => ⟨rfl, rfl, rfl, rfl⟩)
      fun _ has => SigSet.has_add has, live.mask, live.handlers, live.last⟩
  | deliver signal =>
    obtain ⟨-, deliverable, rfl⟩ := step_deliver taken
    exact .inl ⟨_, _, _, live.deliver deliverable⟩
  | next =>
    obtain ⟨loc, live⟩ := live.advances taken
    exact .inl ⟨_, _, _, live⟩
  | schedule polled blocking =>
    have stage := (live.schedules taken).cases_early
    obtain ⟨-, -, returned | ⟨thread, sched, yields, -, rfl⟩⟩ := live.entered taken
    · have late : next.control.early = false := by rw [returned]; rfl
      exact stage.resolve_left (by rw [late]; exact Bool.false_ne_true)
    · refine stage.resolve_left ?_
      have early : ∀ environment, (resume environment).early = false := by
        rintro ⟨func, place⟩
        cases place <;> rfl
      rw [early]
      exact Bool.false_ne_true

theorem created_live (some_ : createdThreads inputs.args ≠ []) (mask : process.mask = baseMask)
    (handlers : 2 ≤ process.handlers) (fresh : Fresh process) :
    ∃ func loc queues, Live inputs (process.createThreads inputs) func loc queues ∧ queues.waiting = [] := by
  have phase : Phase inputs (process.createThreads inputs) := Phase.setupStep mask handlers fresh
  obtain ⟨sched, created, refines⟩ := initThreads_created inputs.args
  have size : sched.rqSize = (createdThreads inputs.args).length := refines.sizes.1
  simp only [Process.createThreads, created] at phase ⊢
  cases phase with
  | live live => exact ⟨_, _, _, live, congrArg Queues.waiting (live.active.refines.unique refines)⟩
  | empty _ same =>
    have none_ : sched.rqSize = 0 := congrArg Sched.rqSize same
    exact absurd (List.length_eq_zero_iff.mp (size.symm.trans none_)) some_
  | stray control => rcases control with ⟨_, control⟩ | control <;> cases control
  | boot control => cases control
  | setup control => cases control
  | ended control => cases control
  | dead control => cases control

/-- The phases of a process that no signal reaches before its threads run. -/
inductive Unharmed (inputs : Inputs) (process : Process) : Prop
  | boot (control : process.control = .boot) (unset : process.schedBuf = false) (fresh : Fresh process)
    (pending : process.pending = emptySet)
  | setup (control : process.control = .setup) (mask : process.mask = baseMask) (handlers : 2 ≤ process.handlers)
    (fresh : Fresh process)
  | live {func : Func} {loc : Loc} {queues : Queues Func} (live : Live inputs process func loc queues)
  | ended (control : process.control = .returned) (ended : Ended inputs process)

theorem Unharmed.alive (unharmed : Unharmed inputs process) : process.control ≠ .dead := by
  intro dead
  cases unharmed with
  | boot control => cases dead.symm.trans control
  | setup control => cases dead.symm.trans control
  | live live =>
    have going := live.stands.going
    rw [dead] at going
    cases going
  | ended control => cases dead.symm.trans control

theorem Unharmed.step {label : Label} (unharmed : Unharmed inputs process)
    (some_ : createdThreads inputs.args ≠ []) (own : label.own = true)
    (taken : process.step inputs label = some next) : Unharmed inputs next := by
  cases unharmed with
  | boot control unset fresh pending =>
    cases label with
    | arrive signal => cases own
    | deliver signal =>
      obtain ⟨-, deliverable, -⟩ := step_deliver taken
      cases signal <;> simp [Process.deliverable, pending, emptySet, SigSet.has] at deliverable
    | next =>
      simp only [Process.step, Process.next, control, setMask_base] at taken
      split_ifs at taken with more <;> obtain rfl := Option.some.inj taken
      · exact .boot rfl unset (fresh.frame rfl rfl rfl rfl rfl) pending
      · exact .setup rfl rfl (Nat.le_of_not_lt more) (fresh.frame rfl rfl rfl rfl rfl)
    | schedule polled blocking => simp [Process.step, Process.schedule, control] at taken
  | setup control mask handlers fresh =>
    cases label with
    | arrive signal => cases own
    | deliver signal =>
      obtain ⟨-, deliverable, -⟩ := step_deliver taken
      simp [not_deliverable mask] at deliverable
    | next =>
      simp only [Process.step, Process.next, control, Option.some.injEq] at taken
      obtain ⟨_, _, _, live, -⟩ := created_live some_ mask handlers fresh
      exact .live (taken ▸ live)
    | schedule polled blocking => simp [Process.step, Process.schedule, control] at taken
  | live live =>
    rcases live.going_on taken with ⟨_, _, _, live⟩ | ⟨control, ended⟩
    · exact .live live
    · exact .ended control ended
  | ended control =>
    rw [over_step (by rw [control]; rfl)] at taken
    cases taken

theorem Unharmed.run {labels : List Label} (some_ : createdThreads inputs.args ≠ [])
    (own : ∀ label ∈ labels, label.own = true) (unharmed : Unharmed inputs process)
    (ran : run (Process.step inputs) process labels = some next) : Unharmed inputs next := by
  induction labels generalizing process with
  | nil => exact Option.some.inj ran ▸ unharmed
  | cons label rest ih =>
    obtain ⟨middle, taken, continued⟩ := (run_cons ..).mp ran
    obtain ⟨first, later⟩ := List.forall_mem_cons.mp own
    exact ih later (unharmed.step some_ first taken) continued

theorem Unharmed.begin (inputs : Inputs) (memory : Func → Tcb) : Unharmed inputs (Process.begin memory) :=
  .boot rfl rfl ⟨rfl, rfl, fun _ => rfl, fun _ => rfl, rfl⟩ rfl

-- A thread that never exits keeps the scheduler from returning.
theorem Unharmed.goes_on (unharmed : Unharmed inputs process) (created : func ∈ createdThreads inputs.args)
    (endless : ∀ pieces, (alone func (inputs.args func) (inputs.results func) pieces).point ≠ none) :
    ∃ label next, label.own = true ∧ process.step inputs label = some next := by
  cases unharmed with
  | boot control unset fresh => exact (Phase.boot control unset fresh).own_step (by rw [control]; rfl)
  | setup control mask handlers fresh =>
    exact (Phase.setup control mask handlers fresh).own_step (by rw [control]; rfl)
  | live live => exact (Phase.live live).own_step live.stands.going
  | ended _ ended =>
    obtain ⟨pieces, tracked⟩ := (ended.gone func ((ended.exited func).mpr created)).tracked
    exact absurd (by rw [tracked]; rfl) (endless pieces)

theorem exists_long (memory : Func → Tcb) (created : func ∈ createdThreads inputs.args)
    (endless : ∀ pieces, (alone func (inputs.args func) (inputs.results func) pieces).point ≠ none) (count : Nat) :
    ∃ labels process, run (Process.step inputs) (Process.begin memory) labels = some process ∧
      labels.countP Label.own = count ∧ Unharmed inputs process := by
  induction count with
  | zero => exact ⟨[], _, rfl, rfl, .begin inputs memory⟩
  | succ count ih =>
    obtain ⟨labels, process, ran, counted, unharmed⟩ := ih
    obtain ⟨label, next, own, taken⟩ := unharmed.goes_on created endless
    refine ⟨labels ++ [label], next, run_snoc ran taken, ?_,
      unharmed.step (List.ne_nil_of_mem created) own taken⟩
    rw [List.countP_append, counted, List.countP_singleton, own, if_pos rfl]

theorem steps_bounded {memory : Func → Tcb} {labels : List Label} (ends : AllExit inputs)
    (ran : run (Process.step inputs) (Process.begin memory) labels = some process) :
    labels.countP Label.own ≤ remaining inputs (Process.begin memory) := by
  have measured := run_measure (Process.step inputs) (Phase inputs) Label.own (remaining inputs)
    (fun _ _ _ phase taken => phase.step taken) (fun _ _ _ phase taken => phase.less ends taken) _ _ labels
    (Phase.begin inputs memory) ran
  omega

/-- Whatever signals arrive and whatever `select` answers, the runs have a bound exactly when each created
thread exits by itself. -/
theorem process_ends_iff (inputs : Inputs) (memory : Func → Tcb) :
    (∃ bound, ∀ labels process, run (Process.step inputs) (Process.begin memory) labels = some process →
      labels.countP Label.own ≤ bound) ↔
    AllExit inputs := by
  constructor
  · rintro ⟨bound, short⟩ func created
    by_contra endless
    obtain ⟨labels, process, ran, counted, -⟩ :=
      exists_long memory created (not_exists.mp endless) (bound + 1)
    have few := short labels process ran
    omega
  · exact fun ends => ⟨_, fun labels process ran => steps_bounded ends ran⟩

/-- What the process comes to: all threads have exited, and printed all that they print by themselves; or
it has died before any of them ran, because no thread was created or one of these signals came. -/
inductive Complete (inputs : Inputs) (came : Signal → Prop) (process : Process) : Prop
  | returned (control : process.control = .returned)
    (printed : ∀ func ∈ createdThreads inputs.args, func ∈ process.exited ∧
      ∃ pieces, (alone func (inputs.args func) (inputs.results func) pieces).point = none ∧
        printedBy process func = (alone func (inputs.args func) (inputs.results func) pieces).values)
  | dead (control : process.control = .dead) (output : process.output = [])
    (cause : createdThreads inputs.args = [] ∨ ∃ signal, came signal)

theorem complete_of_over {memory : Func → Tcb} {labels : List Label}
    (ran : run (Process.step inputs) (Process.begin memory) labels = some process)
    (ended : process.control.over = true) :
    Complete inputs (fun signal => .arrive signal ∈ labels) process := by
  cases Phase.run ran with
  | boot control => simp [control, Control.over] at ended
  | stray control => rcases control with ⟨_, control⟩ | control <;> simp [control, Control.over] at ended
  | setup control => simp [control, Control.over] at ended
  | empty control => simp [control, Control.over] at ended
  | live live =>
    rw [live.stands.going] at ended
    cases ended
  | ended control all =>
    refine .returned control fun func created => ?_
    have exited := (all.exited func).mpr created
    obtain ⟨pieces, tracked⟩ := (all.gone func exited).tracked
    exact ⟨exited, pieces, by rw [tracked]; rfl, by rw [tracked]⟩
  | dead control fresh =>
    refine .dead control fresh.output (or_iff_not_imp_left.mpr fun some_ => ?_)
    by_contra quiet
    refine ((Unharmed.begin inputs memory).run some_ (fun label member => ?_) ran).alive control
    cases label with
    | arrive signal => exact absurd ⟨signal, member⟩ quiet
    | _ => rfl

theorem Complete.mono {came more : Signal → Prop} (complete : Complete inputs came process)
    (also : ∀ signal, came signal → more signal) : Complete inputs more process := by
  cases complete with
  | returned control printed => exact .returned control printed
  | dead control output cause =>
    exact .dead control output (cause.imp_right fun ⟨signal, member⟩ => ⟨signal, also signal member⟩)

end

end SPHomework.Threads
