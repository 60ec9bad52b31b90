import SPHomework.Threads.Watching

set_option autoImplicit false

/-!
# Records that come

With its numbers above the descriptor, a record that is written wakes `max_subarray`.
So every run can be finished, by steps of the process and of the writer.
-/

namespace SPHomework.Threads

open Lib

-- The set of a `select` without a timeout holds the thread that leaves for it, or others that wait.
theorem blockedOn_waits {T : Type} (fd : T → Int) (polled : FdSet) {state : Sched T} {queues : Queues T} {jmpval : Jump}
    {set : FdSet} (refines : Refines state queues) (valid : queues.current < queues.ready.length)
    (asked : blockedOn fd jmpval polled state = some set) :
    (jmpval = .asyncRead ∧ set (fd queues.ready[queues.current]) = true) ∨
      ∃ thread ∈ queues.waiting, set (fd thread) = true := by
  obtain ⟨after, ran, result⟩ := poll_refines fd polled refines
  obtain ⟨before, filled, members⟩ := waitingSet_refines fd result
  have runs : running after = some queues.ready[queues.current] := by
    rw [running_refines result (queues.wake_valid _ valid), ← List.getElem?_eq_getElem]
    exact queues.wake_get _ (List.getElem?_eq_getElem valid)
  simp only [blockedOn, ran, filled, runs, Option.bind_eq_bind, Option.bind_some] at asked
  cases jmpval with
  | asyncRead =>
    simp only [Option.ite_none_right_eq_some, Option.some.injEq] at asked
    exact .inl ⟨rfl, by rw [← asked.2]; exact Function.update_self ..⟩
  | exit =>
    simp only [Option.ite_none_right_eq_some, Option.some.injEq] at asked
    obtain ⟨⟨-, some_⟩, rfl⟩ := asked
    rw [result.sizes.2.1] at some_
    obtain ⟨thread, waits⟩ := List.exists_mem_of_length_pos (Nat.pos_of_ne_zero some_)
    exact .inr ⟨thread, (List.mem_filter.mp waits).1, (members _).mpr ⟨thread, waits, rfl⟩⟩
  | first => cases asked
  | yield => cases asked

section

variable {setting : Setting} {host : Host} {current : Func} {loc : Loc} {queues : Queues Func} {jmpval : Jump}

theorem select_finds {nfds : Int} (watches : setting.fd .maxSubarray < nfds) (some_ : host.taken < host.written)
    {set : FdSet} (watched : set (setting.fd .maxSubarray) = true) :
    select nfds (host.readable setting) setting.keeps set (setting.fd .maxSubarray) = true := by
  have opened := setting.opened.1
  rw [select, if_neg (by omega)]
  simp [watches, watched, Host.readable, some_]

-- An entry that comes to a `select` without a timeout, and the fifo is in its set.
theorem Orderly.asked {set : FdSet} (orderly : Orderly setting host)
    (control : host.process.control = .entry jmpval)
    (asked : blockedOn setting.fd jmpval (host.polled setting) host.process.sched = some set) :
    host.awaits ∧ set (setting.fd .maxSubarray) = true := by
  cases orderly.phase with
  | @live current loc queues live =>
    rcases blockedOn_waits setting.fd _ live.active.refines live.active.valid asked with
      ⟨rfl, watched⟩ | ⟨thread, waits, watched⟩
    · rw [live.active.running, live.reads control] at watched
      exact ⟨live.awaits control (.inl rfl), watched⟩
    · obtain ⟨rfl, -⟩ := orderly.begun.reader live thread waits
      exact ⟨live.awaits control (.inr waits), watched⟩
  | empty first sched =>
    obtain rfl : jmpval = .first := Control.entry.inj (control.symm.trans first)
    rw [sched] at asked
    simp [blockedOn, poll, waitingSet, wake, wakeLoop, running, deref, load, emptySched, threadMax] at asked
  | stray other => rcases other with ⟨_, other⟩ | other <;> cases control.symm.trans other
  | boot other => cases control.symm.trans other
  | setup other => cases control.symm.trans other
  | ended other => cases control.symm.trans other
  | dead other => cases control.symm.trans other

-- With a record in the fifo, `select` comes back.
theorem Orderly.resumes (orderly : Orderly setting host) (watches : Watches setting host .schedule)
    (some_ : host.taken < host.written) : host.hangs setting = false := by
  unfold Host.hangs
  split
  case h_2 => rfl
  case h_1 jmpval control =>
    split
    case h_2 => rfl
    case h_1 set asked =>
      obtain ⟨awaits, watched⟩ := orderly.asked control asked
      have below := watches rfl awaits
      simp [Host.returns, watched, below, some_]

/-- An entry of the scheduler after one more record. -/
theorem Aware.enters (aware : Aware setting host) (above : setting.Above)
    (small : setting.args .maxSubarray ≤ intMax) (control : host.process.control = .entry jmpval) :
    ∃ polled blocking final, run (Host.step setting) host [.write, .schedule] = some final ∧ Aware setting final ∧
      host.process.schedule setting.inOrder polled blocking = some final.process ∧
      (host.awaits → polled (setting.fd .maxSubarray) = true) := by
  let more : Host := { host with written := host.written + 1 }
  have wrote : host.step setting .write = some more := rfl
  have aware' : Aware setting more := aware.step (aware.watches above small _) wrote
  have watches := aware'.watches above small .schedule
  have some_ : more.taken < more.written := Nat.lt_succ_of_le aware.orderly.behind
  have resumes := aware'.orderly.resumes watches some_
  obtain ⟨process, entered⟩ : ∃ process, host.process.schedule setting.inOrder (more.polled setting)
      (more.blocking setting) = some process := by
    unfold Process.schedule
    rw [control]
    exact ⟨_, rfl⟩
  have taken : more.step setting .schedule = some { more with process := process } := by
    simp only [Host.step, resumes, Bool.false_eq_true, if_false]
    exact congrArg (Option.map _) entered
  refine ⟨more.polled setting, more.blocking setting, _, (run_cons ..).mpr ⟨more, wrote, (run_cons ..).mpr
    ⟨_, taken, rfl⟩⟩, aware'.step watches taken, entered, fun awaits => ?_⟩
  exact select_finds (watches rfl awaits) some_ rfl

/-- Each other step of the process is one of the host. -/
theorem Aware.follows {label : Label} {next : Process} (aware : Aware setting host) (above : setting.Above)
    (small : setting.args .maxSubarray ≤ intMax) (taken : host.process.step setting.inOrder label = some next)
    (calm : label.calm = true) :
    ∃ event final, host.step setting event = some final ∧ Aware setting final ∧ final.process = next ∧
      event.own = label.own := by
  obtain ⟨event, final, stepped, same, own⟩ : ∃ event final, host.step setting event = some final ∧
      final.process = next ∧ event.own = label.own := by
    cases label with
    | arrive signal => exact ⟨.arrive signal, _, congrArg (Option.map _) taken, rfl, rfl⟩
    | deliver signal => exact ⟨.deliver signal, _, congrArg (Option.map _) taken, rfl, rfl⟩
    | schedule polled blocking => cases calm
    | next =>
      have here : host.process.next (setting.inputs fun _ _ => host.delivered setting) = some next := by
        rw [← show host.process.next setting.inOrder = some next from taken]
        refine next_agree fun func thread control runs => ?_
        obtain ⟨rfl, mine⟩ := aware.orderly.phase.atRead control
        obtain rfl := Option.some.inj (runs.symm.trans mine)
        rw [Host.delivered, if_pos (aware.orderly.record control), aware.orderly.reads]
      refine ⟨.next, _, congrArg (Option.map _) here, ?_, rfl⟩
      unfold Host.after
      split <;> rfl
  exact ⟨event, final, stepped, aware.step (aware.watches above small _) stepped, same, own⟩

theorem Aware.run {memory : Func → Tcb} {events : List Event} (above : setting.Above)
    (small : setting.args .maxSubarray ≤ intMax)
    (ran : run (Host.step setting) (Host.begin memory) events = some host) : Aware setting host :=
  run_invariant (Host.step setting) (Aware setting)
    (fun _ _ _ aware taken => aware.step (aware.watches above small _) taken) _ _ events (.begin setting memory) ran

/-- The process takes the next record, or another step of its own. -/
theorem Aware.advances (aware : Aware setting host) (above : setting.Above)
    (small : setting.args .maxSubarray ≤ intMax) (going : host.process.control.over = false) :
    ∃ events final label, Lib.run (Host.step setting) host events = some final ∧ Aware setting final ∧
      (∀ event ∈ events, event.own = true ∨ event = .write) ∧ label.own = true ∧
      host.process.step setting.inOrder label = some final.process := by
  rcases aware.orderly.phase.goes_on going with ⟨next, taken⟩ | ⟨jmpval, control⟩
  · have taken' : host.process.step setting.inOrder .next = some next := taken
    obtain ⟨event, final, stepped, aware', rfl, own⟩ := aware.follows above small taken' rfl
    exact ⟨[event], final, .next, (run_cons ..).mpr ⟨final, stepped, rfl⟩, aware', by simp [own, Label.own], rfl, taken⟩
  · obtain ⟨polled, blocking, final, ran, aware', entered, -⟩ := aware.enters above small control
    exact ⟨_, final, .schedule polled blocking, ran, aware', by simp [Event.own], rfl, entered⟩

theorem Orderly.project {memory : Func → Tcb} {events : List Event} (orderly : Orderly setting host)
    (ran : Lib.run (Host.step setting) (Host.begin memory) events = some host) :
    ∃ labels, Lib.run (Process.step setting.inOrder) (Process.begin memory) labels = some host.process ∧
      labels.countP Label.own = events.countP Event.own ∧
      ∀ signal, .arrive signal ∈ labels → .arrive signal ∈ events :=
  (Host.project ran).2 _ (orderly.got ▸ agrees_records _)

theorem Aware.complete {memory : Func → Tcb} {events : List Event} (aware : Aware setting host)
    (ran : Lib.run (Host.step setting) (Host.begin memory) events = some host)
    (ended : host.process.control.over = true) :
    Complete setting.inOrder (fun signal => .arrive signal ∈ events) host.process := by
  obtain ⟨labels, went, -, arrived⟩ := aware.orderly.project ran
  exact (complete_of_over went ended).mono arrived

end

end SPHomework.Threads
