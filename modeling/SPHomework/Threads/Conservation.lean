import SPHomework.Threads.Queues

set_option autoImplicit false

/-!
# No thread is lost or duplicated

Each entry of the scheduler refines a short sequence of queue operations. The
threads in the two queues are then a permutation of the live threads at every
dispatch, and the scheduler returns exactly when no thread is live.
-/

namespace SPHomework.Threads

variable {T : Type}

theorem poll_refines (fd : T → Int) (polled : FdSet) {state : Sched T} {queues : Queues T}
    (refines : Refines state queues) :
    ∃ after, poll fd polled state = some after ∧ Refines after (queues.wake fun thread => polled (fd thread)) := by
  obtain ⟨set, filled, members⟩ := waitingSet_refines fd refines
  obtain ⟨after, woken, result⟩ := wake_refines fd
    (if state.wqSize ≠ 0 then fun number => set number && polled number else set) refines
  refine ⟨after, by simpa [poll, filled] using woken, ?_⟩
  rw [queues.wake_congr fun thread waits => ?_] at result
  · exact result
  · have some_ : state.wqSize ≠ 0 := by
      rw [refines.sizes.2.1]
      exact Nat.ne_of_gt (List.length_pos_of_mem waits)
    have watched : set (fd thread) = true := (members _).mpr ⟨thread, waits, rfl⟩
    simp [some_, watched]

theorem block_refines (fd : T → Int) (blocking : Blocking) {state : Sched T} {queues : Queues T}
    (refines : Refines state queues) (some_waiting : queues.waiting ≠ []) :
    ∃ set after, waitingSet fd state = some set ∧ block fd blocking state = some after ∧
      Refines after (queues.wake fun thread => blocking.answer set (fd thread)) ∧
      queues.waiting.filter (fun thread => blocking.answer set (fd thread)) ≠ [] := by
  obtain ⟨set, filled, members⟩ := waitingSet_refines fd refines
  obtain ⟨after, woken, result⟩ := wake_refines fd (blocking.answer set) refines
  refine ⟨set, after, filled, by simpa [block, filled] using woken, result, ?_⟩
  -- some watched descriptor is ready, and only waiting threads are watched
  obtain ⟨first, present⟩ := List.exists_mem_of_ne_nil _ some_waiting
  obtain ⟨number, ready⟩ :=
    blocking.nonempty set ⟨fd first, (members _).mpr ⟨first, present, rfl⟩⟩
  obtain ⟨thread, waits, rfl⟩ := (members number).mp (blocking.subset set number ready)
  exact List.ne_nil_of_mem (List.mem_filter.mpr ⟨waits, ready⟩)

theorem fillHole_holds (state : Sched T) (queues : Queues T)
    (ready : Holds state.readyQueue state.rqSize queues.ready)
    (current : state.rqCurrent = queues.current) (bound : state.rqSize ≤ threadMax)
    (valid : queues.current < queues.ready.length) :
    ∃ after, fillHole state = some after ∧
      Holds after.readyQueue after.rqSize queues.retire.ready ∧
      after.rqCurrent = queues.retire.current ∧
      after.waitingQueue = state.waitingQueue ∧ after.wqSize = state.wqSize := by
  have size := ready.1
  have nonempty : queues.ready ≠ [] := List.ne_nil_of_length_pos (by omega)
  have last := List.getLast?_eq_getLast_of_ne_nil nonempty
  -- the running thread is the last one, or the last one takes its place
  by_cases atEnd : queues.current + 1 = queues.ready.length
  · refine ⟨{ state with rqCurrent := 0, rqSize := state.rqSize - 1 }, ?_, ?_, ?_, rfl, rfl⟩
    · simp [fillHole, current, ← size, atEnd]
    · have same : queues.ready.set queues.current (queues.ready.getLast nonempty) = queues.ready := by
        have here : queues.ready.getLast nonempty = queues.ready[queues.current] := by
          rw [List.getLast_eq_getElem]
          congr 1
          omega
        rw [here, List.set_getElem_self]
      simpa [Queues.retire, last, same] using ready.dropLast
    · simp [Queues.retire, atEnd]
  · have moved := ready.set queues.current (queues.ready.getLast nonempty)
    have source : state.readyQueue (state.rqSize - 1) = some (queues.ready.getLast nonempty) := by
      rw [ready.2 _ (by omega), ← size, List.getLast_eq_getElem, List.getElem?_eq_getElem]
    refine ⟨{ state with
      readyQueue := Function.update state.readyQueue queues.current
        (some (queues.ready.getLast nonempty))
      rqSize := state.rqSize - 1 }, ?_, ?_, ?_, rfl, rfl⟩
    · have inside : state.rqSize - 1 < threadMax := by omega
      have hole : queues.current < threadMax := by omega
      have more : ¬ queues.current + 1 = state.rqSize := by omega
      simp [fillHole, current, more, load_eq _ inside, store_eq _ hole, source]
    · simpa [Queues.retire, last] using moved.dropLast
    · simpa [Queues.retire, atEnd] using current

theorem running_refines {state : Sched T} {queues : Queues T} (refines : Refines state queues)
    (valid : queues.current < queues.ready.length) :
    running state = some queues.ready[queues.current] := by
  obtain ⟨readySize, _, fits⟩ := refines.sizes
  rw [running, refines.current]
  exact deref_holds refines.ready (by omega) queues.current valid

-- The scheduler dispatches a thread, with the queues as they are then.
def Reaches (result : Option (Sched T × Outcome T)) (next : Queues T) : Prop :=
  ∃ after thread, result = some (after, .dispatch thread) ∧ Refines after next ∧
    next.current < next.ready.length

def Dispatches (result : Option (Sched T × Outcome T)) (queues : Queues T) : Prop :=
  ∃ after queues' thread, result = some (after, .dispatch thread) ∧ Refines after queues' ∧
    queues'.current < queues'.ready.length ∧ queues'.threads.Perm queues.threads

theorem Reaches.dispatches {result : Option (Sched T × Outcome T)} {next queues : Queues T}
    (reaches : Reaches result next) (kept : next.threads.Perm queues.threads) :
    Dispatches result queues := by
  obtain ⟨after, thread, ran, refines, valid⟩ := reaches
  exact ⟨after, next, thread, ran, refines, valid, kept⟩

theorem dispatch_reaches {state : Sched T} {next : Queues T} (refines : Refines state next)
    (valid : next.current < next.ready.length) : Reaches (dispatch state) next :=
  ⟨state, next.ready[next.current], by simp [dispatch, running_refines refines valid], refines, valid⟩

/-- Who is in the ready queue after an entry by a thread that leaves: who was, and who the `select` without a
timeout has found. -/
def Woken (fd : T → Int) (jmpval : Jump) (polled : FdSet) (blocking : Blocking) (state : Sched T)
    (left next : Queues T) : Prop :=
  ∀ thread ∈ next.ready, thread ∈ left.ready ∨
    ∃ set, blockedOn fd jmpval polled state = some set ∧ blocking.answer set (fd thread) = true

-- A thread was removed from the ready queue: the next one is dispatched, after a blocking
-- `select` where none is left.
theorem resume_reaches (fd : T → Int) (blocking : Blocking) {state : Sched T} {left : Queues T}
    (refines : Refines state left) (valid : left.ready ≠ [] → left.current < left.ready.length)
    (start : left.ready = [] → left.current = 0) (others : left.threads ≠ []) :
    ∃ next, left.Resumes next ∧
      (∀ thread ∈ next.ready, thread ∈ left.ready ∨ left.ready = [] ∧
        ∃ set, waitingSet fd state = some set ∧ blocking.answer set (fd thread) = true) ∧
      Reaches (if state.rqSize = 0 then (block fd blocking state).bind dispatch else dispatch state) next := by
  by_cases empty : left.ready = []
  · have waits : left.waiting ≠ [] := by simpa [Queues.threads, empty] using others
    obtain ⟨set, after, filled, ran, result, woken⟩ := block_refines fd blocking refines waits
    have inside : (left.wake fun thread => blocking.answer set (fd thread)).current <
        (left.wake fun thread => blocking.answer set (fd thread)).ready.length := by
      simpa [Queues.wake, start empty, empty] using List.length_pos_iff.mpr woken
    have size : state.rqSize = 0 := by rw [refines.sizes.1, empty]; rfl
    refine ⟨left.wake fun thread => blocking.answer set (fd thread), .woken _ empty, fun thread member => ?_, ?_⟩
    · rcases List.mem_append.mp member with before | added
      · exact .inl before
      · exact .inr ⟨empty, set, filled, (List.mem_filter.mp added).2⟩
    · rw [if_pos size, ran]
      exact dispatch_reaches result inside
  · have inside := valid empty
    refine ⟨left, .ready empty, fun thread member => .inl member, ?_⟩
    rw [if_neg (by rw [refines.sizes.1]; omega)]
    exact dispatch_reaches refines inside

theorem retire_start (queues : Queues T) (valid : queues.current < queues.ready.length)
    (empty : queues.retire.ready = []) : queues.retire.current = 0 := by
  have length := queues.retire_length valid
  rw [empty] at length
  simp only [Queues.retire]
  rw [if_pos (by simp at length; omega)]

theorem first_reaches (fd : T → Int) (polled : FdSet) (blocking : Blocking) {state : Sched T}
    {queues : Queues T} (refines : Refines state queues)
    (valid : queues.current < queues.ready.length) :
    Reaches (scheduler fd .first polled blocking state) (queues.wake fun thread => polled (fd thread)) := by
  obtain ⟨woken, ran, result⟩ := poll_refines fd polled refines
  have step : scheduler fd .first polled blocking state = dispatch woken := by simp [scheduler, ran]
  rw [step]
  exact dispatch_reaches result (queues.wake_valid _ valid)

theorem yield_reaches (fd : T → Int) (polled : FdSet) (blocking : Blocking) {state : Sched T}
    {queues : Queues T} (refines : Refines state queues)
    (valid : queues.current < queues.ready.length) :
    Reaches (scheduler fd .yield polled blocking state)
      (queues.wake fun thread => polled (fd thread)).advance := by
  obtain ⟨woken, ran, result⟩ := poll_refines fd polled refines
  have inside := queues.wake_valid (fun thread => polled (fd thread)) valid
  generalize queues.wake (fun thread => polled (fd thread)) = polledQueues at result inside ⊢
  have next := polledQueues.advance_current inside
  have size := result.sizes.1
  have step : scheduler fd .yield polled blocking state =
      dispatch { woken with rqCurrent := polledQueues.advance.current } := by
    by_cases wraps : woken.rqCurrent + 1 = woken.rqSize <;>
      simp [scheduler, ran, Queues.advance, ← result.current, ← size, wraps]
  have moved : Refines { woken with rqCurrent := polledQueues.advance.current } polledQueues.advance :=
    ⟨result.ready, result.waiting, rfl, result.fits⟩
  rw [step]
  exact dispatch_reaches moved next

theorem asyncRead_reaches (fd : T → Int) (polled : FdSet) (blocking : Blocking)
    {state : Sched T} {queues : Queues T} (refines : Refines state queues)
    (valid : queues.current < queues.ready.length) :
    ∃ next, ((queues.wake fun thread => polled (fd thread)).suspend
        queues.ready[queues.current]).retire.Resumes next ∧
      Woken fd .asyncRead polled blocking state ((queues.wake fun thread => polled (fd thread)).suspend
        queues.ready[queues.current]).retire next ∧
      Reaches (scheduler fd .asyncRead polled blocking state) next := by
  obtain ⟨woken, ran, result⟩ := poll_refines fd polled refines
  have inside := queues.wake_valid (fun thread => polled (fd thread)) valid
  have running := queues.wake_get (fun thread => polled (fd thread)) (List.getElem?_eq_getElem valid)
  generalize queues.ready[queues.current] = thread at running ⊢
  change (queues.wake fun thread => polled (fd thread)).ready[(queues.wake fun thread =>
    polled (fd thread)).current]? = some thread at running
  generalize queues.wake (fun thread => polled (fd thread)) = polledQueues at result inside running ⊢
  obtain ⟨readySize, waitingSize, fits⟩ := result.sizes
  -- The running thread joins the waiting queue first, so for one store it is in both queues.
  have here : load woken.readyQueue woken.rqCurrent = some (some thread) := by
    rw [result.current, load_eq _ (by omega), result.ready.2 _ (by omega), running]
  obtain ⟨after, filled, ready, current, sameQueue, sameSize⟩ := fillHole_holds
    { woken with
      waitingQueue := Function.update woken.waitingQueue woken.wqSize (some thread)
      wqSize := woken.wqSize + 1 }
    polledQueues result.ready result.current (by simp; omega) inside
  have moved := polledQueues.suspend_retire inside running
  have refined : Refines after (polledQueues.suspend thread).retire := by
    refine ⟨ready, ?_, current, by rw [moved.length_eq]; exact result.fits⟩
    simpa [sameQueue, sameSize, Queues.suspend, Queues.retire] using result.waiting.push thread
  have step : scheduler fd .asyncRead polled blocking state =
      if after.rqSize = 0 then (block fd blocking after).bind dispatch else dispatch after := by
    have room : woken.wqSize < threadMax := by omega
    simp [scheduler, ran, here, store_eq _ room, filled]
  rw [step]
  obtain ⟨next, resumes, woken', reaches⟩ := resume_reaches fd blocking refined
    (fun others => (polledQueues.suspend thread).retire_current inside others)
    (fun empty => retire_start (polledQueues.suspend thread) inside empty)
    (by simp [Queues.threads, Queues.suspend, Queues.retire])
  refine ⟨next, resumes, fun other member => (woken' other member).imp_right ?_, reaches⟩
  rintro ⟨empty, set, waits, answered⟩
  -- the set holds the threads that wait already and the one that has left
  obtain ⟨before, waits', members⟩ := waitingSet_refines fd result
  obtain ⟨set', same, members'⟩ := waitingSet_refines fd refined
  obtain rfl := Option.some.inj (waits.symm.trans same)
  have runs : Threads.running woken = some thread := by
    rw [running_refines result inside]
    exact (List.getElem?_eq_getElem inside).symm.trans running
  have alone : woken.rqSize = 1 := by
    have length := polledQueues.retire_length inside
    have none_ : polledQueues.retire.ready = [] := empty
    rw [none_, List.length_nil] at length
    omega
  refine ⟨set, ?_, answered⟩
  simp only [blockedOn, ran, waits', runs, alone, if_true, Option.bind_eq_bind, Option.bind_some, Option.some.injEq]
  funext number
  rw [Bool.eq_iff_iff, members' number]
  by_cases here : number = fd thread
  · simp [here, Queues.suspend, Queues.retire]
  · simp [here, members number, Queues.suspend, Queues.retire, Ne.symm here, or_and_right, exists_or]

theorem exit_reaches (fd : T → Int) (polled : FdSet) (blocking : Blocking) {state : Sched T}
    {queues : Queues T} (refines : Refines state queues)
    (valid : queues.current < queues.ready.length) :
    ((queues.wake fun thread => polled (fd thread)).retire.threads = [] →
      ∃ after, scheduler fd .exit polled blocking state = some (after, .returned) ∧
        after.rqSize = 0 ∧ after.wqSize = 0) ∧
    ((queues.wake fun thread => polled (fd thread)).retire.threads ≠ [] →
      ∃ next, (queues.wake fun thread => polled (fd thread)).retire.Resumes next ∧
        Woken fd .exit polled blocking state (queues.wake fun thread => polled (fd thread)).retire next ∧
        Reaches (scheduler fd .exit polled blocking state) next) := by
  obtain ⟨woken, ran, result⟩ := poll_refines fd polled refines
  have inside := queues.wake_valid (fun thread => polled (fd thread)) valid
  generalize queues.wake (fun thread => polled (fd thread)) = polledQueues at result inside ⊢
  obtain ⟨readySize, waitingSize, fits⟩ := result.sizes
  obtain ⟨after, filled, ready, current, sameQueue, sameSize⟩ := fillHole_holds woken polledQueues
    result.ready result.current (by omega) inside
  have removed : (polledQueues.ready[polledQueues.current] :: polledQueues.retire.threads).Perm
      polledQueues.threads := (polledQueues.retire_ready inside).append_right _
  have refined : Refines after polledQueues.retire := by
    refine ⟨ready, by rw [sameQueue, sameSize]; exact result.waiting, current, ?_⟩
    have length := removed.length_eq
    have before := result.fits
    simp only [List.length_cons] at length
    omega
  obtain ⟨finalReady, finalWaiting, _⟩ := refined.sizes
  -- nobody is left in either queue, or somebody else is dispatched
  refine ⟨fun done => ?_, fun others => ?_⟩
  · obtain ⟨noReady, noWaiting⟩ := List.append_eq_nil_iff.mp done
    rw [noReady] at finalReady
    rw [noWaiting] at finalWaiting
    exact ⟨after, by simp [scheduler, ran, filled, finalReady, finalWaiting], finalReady, finalWaiting⟩
  · have nonempty : ¬ (after.rqSize = 0 ∧ after.wqSize = 0) := by
      rw [finalReady, finalWaiting]
      simpa [Queues.threads] using others
    have step : scheduler fd .exit polled blocking state =
        if after.rqSize = 0 then (block fd blocking after).bind dispatch else dispatch after := by
      simp [scheduler, ran, filled, nonempty]
    rw [step]
    obtain ⟨next, resumes, woken', reaches⟩ := resume_reaches fd blocking refined
      (fun others => polledQueues.retire_current inside others)
      (fun empty => retire_start polledQueues inside empty) others
    refine ⟨next, resumes, fun other member => (woken' other member).imp_right ?_, reaches⟩
    rintro ⟨empty, set, waits, answered⟩
    have waits' : waitingSet fd woken = some set := by
      rw [← waits, waitingSet, waitingSet, sameQueue, sameSize]
    have length := polledQueues.retire_length inside
    rw [empty, List.length_nil] at length
    have alone : woken.rqSize = 1 := by omega
    have more : woken.wqSize ≠ 0 := by
      rw [← sameSize]
      intro none_
      exact nonempty ⟨by rw [finalReady, empty]; rfl, none_⟩
    refine ⟨set, ?_, answered⟩
    simp [blockedOn, ran, waits', running_refines result inside, alone, more]

theorem scheduler_first (fd : T → Int) (polled : FdSet) (blocking : Blocking) {state : Sched T}
    {queues : Queues T} (refines : Refines state queues)
    (valid : queues.current < queues.ready.length) :
    Dispatches (scheduler fd .first polled blocking state) queues := by
  exact (first_reaches fd polled blocking refines valid).dispatches (queues.wake_threads _)

theorem scheduler_yield (fd : T → Int) (polled : FdSet) (blocking : Blocking) {state : Sched T}
    {queues : Queues T} (refines : Refines state queues)
    (valid : queues.current < queues.ready.length) :
    Dispatches (scheduler fd .yield polled blocking state) queues := by
  exact (yield_reaches fd polled blocking refines valid).dispatches (queues.wake_threads _)

theorem scheduler_asyncRead (fd : T → Int) (polled : FdSet) (blocking : Blocking)
    {state : Sched T} {queues : Queues T} (refines : Refines state queues)
    (valid : queues.current < queues.ready.length) :
    Dispatches (scheduler fd .asyncRead polled blocking state) queues := by
  obtain ⟨next, resumes, -, reaches⟩ := asyncRead_reaches fd polled blocking refines valid
  have moved := (queues.wake fun thread => polled (fd thread)).suspend_retire (queues.wake_valid _ valid)
    (queues.wake_get _ (List.getElem?_eq_getElem valid))
  exact reaches.dispatches (resumes.threads.trans (moved.trans (queues.wake_threads _)))

theorem scheduler_exit (fd : T → Int) (polled : FdSet) (blocking : Blocking) {state : Sched T}
    {queues : Queues T} (refines : Refines state queues)
    (valid : queues.current < queues.ready.length) :
    ∃ rest : Queues T, (queues.ready[queues.current] :: rest.threads).Perm queues.threads ∧
      (rest.threads = [] →
        ∃ after, scheduler fd .exit polled blocking state = some (after, .returned) ∧
          after.rqSize = 0 ∧ after.wqSize = 0) ∧
      (rest.threads ≠ [] → Dispatches (scheduler fd .exit polled blocking state) rest) := by
  obtain ⟨done, others⟩ := exit_reaches fd polled blocking refines valid
  have inside := queues.wake_valid (fun thread => polled (fd thread)) valid
  have removed := (queues.wake fun thread => polled (fd thread)).retire_ready inside
  have same : (queues.wake fun thread => polled (fd thread)).ready[(queues.wake fun thread =>
      polled (fd thread)).current] = queues.ready[queues.current] := List.getElem_append_left valid
  rw [same] at removed
  refine ⟨(queues.wake fun thread => polled (fd thread)).retire, ?_, done, fun left => ?_⟩
  · exact (removed.append_right _).trans (queues.wake_threads _)
  · obtain ⟨next, resumes, -, reaches⟩ := others left
    exact reaches.dispatches resumes.threads

structure Conserved (state : Sched T) (live exited : List T) : Prop where
  once : ((List.range state.rqSize).map state.readyQueue ++
    (List.range state.wqSize).map state.waitingQueue).Perm (live.map some)
  distinct : (live ++ exited).Nodup
  current : state.rqCurrent < state.rqSize
  fits : state.rqSize + state.wqSize ≤ threadMax

/-- `threads` are the created threads; the machine has returned exactly when all have exited. -/
def Machine.Conserved (threads : List T) : Machine T → Prop
  | .running state live exited =>
    live ≠ [] ∧ (live ++ exited).Perm threads ∧ Threads.Conserved state live exited
  | .returned state live exited =>
    live = [] ∧ exited.Perm threads ∧ state.rqSize = 0 ∧ state.wqSize = 0

def Machine.Tracks (threads : List T) : Machine T → Prop
  | .running state live exited =>
    (live ++ exited).Perm threads ∧ ∃ queues, Refines state queues ∧
      queues.current < queues.ready.length ∧ queues.threads.Perm live
  | .returned state live exited =>
    live = [] ∧ exited.Perm threads ∧ state.rqSize = 0 ∧ state.wqSize = 0

theorem Machine.Tracks.conserved {threads : List T} {machine : Machine T}
    (tracks : machine.Tracks threads) (distinct : threads.Nodup) : machine.Conserved threads := by
  cases machine with
  | returned state live exited => exact tracks
  | running state live exited =>
    obtain ⟨all, queues, refines, valid, same⟩ := tracks
    obtain ⟨readySize, waitingSize, fits⟩ := refines.sizes
    refine ⟨?_, all, ?_, all.nodup_iff.mpr distinct, by rw [refines.current]; omega, by omega⟩
    · rintro rfl
      have length := same.length_eq
      simp only [Queues.threads, List.length_append, List.length_nil] at length
      omega
    · rw [refines.ready.map_range, refines.waiting.map_range, ← List.map_append]
      exact same.map some

theorem Dispatches.tracks {threads live exited : List T} {queues : Queues T}
    {result : Option (Sched T × Outcome T)} (dispatches : Dispatches result queues)
    (same : queues.threads.Perm live) (all : (live ++ exited).Perm threads) :
    ∃ machine, result.map (Machine.of live exited) = some machine ∧ machine.Tracks threads := by
  obtain ⟨after, queues', thread, rfl, refines, valid, kept⟩ := dispatches
  exact ⟨_, rfl, all, queues', refines, valid, kept.trans same⟩

-- One entry by the running thread, whatever it did and whatever the kernel answered.
theorem Machine.step_tracks [DecidableEq T] (fd : T → Int) {threads : List T}
    {machine : Machine T} (tracks : machine.Tracks threads) (entry : Entry) :
    ∃ next, machine.step fd entry = some next ∧ next.Tracks threads := by
  cases machine with
  | returned state live exited => exact ⟨_, rfl, tracks⟩
  | running state live exited =>
    obtain ⟨all, queues, refines, valid, same⟩ := tracks
    have here := running_refines refines valid
    obtain ⟨jmpval, reentry, polled, blocking⟩ := entry
    cases jmpval with
    | first => exact absurd rfl reentry
    | yield =>
      have moved := scheduler_yield fd polled blocking refines valid
      simpa [Machine.step, here, Option.map_eq_bind] using moved.tracks same all
    | asyncRead =>
      have moved := scheduler_asyncRead fd polled blocking refines valid
      simpa [Machine.step, here, Option.map_eq_bind] using moved.tracks same all
    | exit =>
      set thread := queues.ready[queues.current] with named
      have present : thread ∈ live := same.subset (by simp [Queues.threads, named])
      obtain ⟨rest, removed, last, others⟩ := scheduler_exit fd polled blocking refines valid
      have same' : rest.threads.Perm (live.erase thread) :=
        List.Perm.cons_inv (removed.trans (same.trans (List.perm_cons_erase present)))
      have all' : (live.erase thread ++ thread :: exited).Perm threads := by
        have moved := List.perm_middle.trans ((List.perm_cons_erase present).symm.append_right exited)
        exact moved.trans all
      by_cases empty : rest.threads = []
      · obtain ⟨after, ran, noReady, noWaiting⟩ := last empty
        rw [empty] at same'
        have none := same'.nil_eq
        rw [← none] at all'
        refine ⟨.returned after [] (thread :: exited), ?_, rfl, all', noReady, noWaiting⟩
        simp [Machine.step, here, ran, ← none, Machine.of]
      · simpa [Machine.step, here, Option.map_eq_bind] using (others empty).tracks same' all'

theorem initThreads_refines (before added : List T) (state : Sched T)
    (refines : Refines state ⟨before, state.rqCurrent, []⟩)
    (bound : before.length + added.length ≤ threadMax) :
    ∃ after, added.foldlM threadSetup state = some after ∧
      Refines after ⟨before ++ added, state.rqCurrent, []⟩ := by
  induction added generalizing before state with
  | nil => exact ⟨state, rfl, by simpa using refines⟩
  | cons thread rest ih =>
    have size := refines.sizes.1
    simp only [List.length_cons] at bound size
    have room : state.rqSize < threadMax := by omega
    obtain ⟨after, ran, result⟩ := ih (before ++ [thread])
      { state with
        readyQueue := Function.update state.readyQueue state.rqSize (some thread)
        rqSize := state.rqSize + 1 }
      ⟨refines.ready.push thread, refines.waiting, rfl, by simp [Queues.threads]; omega⟩
      (by simp; omega)
    exact ⟨after, by simpa [threadSetup, store_eq _ room] using ran, by simpa using result⟩

theorem start_tracks (fd : T → Int) (polled : FdSet) (blocking : Blocking) (threads : List T)
    (nonempty : threads ≠ []) (bound : threads.length ≤ threadMax) :
    ∃ machine, start fd polled blocking threads = some machine ∧ machine.Tracks threads := by
  have empty : Refines (T := T) emptySched ⟨[], 0, []⟩ :=
    ⟨⟨rfl, fun _ inside => absurd inside (Nat.not_lt_zero _)⟩,
      ⟨rfl, fun _ inside => absurd inside (Nat.not_lt_zero _)⟩, rfl, by simp [Queues.threads]⟩
  obtain ⟨state, created, refines⟩ := initThreads_refines [] threads emptySched empty (by simpa using bound)
  have ready : Refines { state with rqCurrent := 0 } ⟨threads, 0, []⟩ :=
    ⟨refines.ready, refines.waiting, rfl, refines.fits⟩
  have moved := scheduler_first fd polled blocking ready (List.length_pos_iff.mpr nonempty)
  have all : (threads ++ []).Perm threads := by simp
  have tracked := moved.tracks (by simp [Queues.threads]) all
  simpa [start, initThreads, created, Option.map_eq_bind] using tracked

theorem run_tracks [DecidableEq T] (fd : T → Int) {threads : List T} {machine : Machine T}
    (tracks : machine.Tracks threads) (entries : List Entry) :
    ∃ final, Lib.run (Machine.step fd) machine entries = some final ∧ final.Tracks threads := by
  induction entries generalizing machine with
  | nil => exact ⟨machine, rfl, tracks⟩
  | cons entry rest ih =>
    obtain ⟨next, taken, tracked⟩ := Machine.step_tracks fd tracks entry
    obtain ⟨final, ran, result⟩ := ih tracked
    exact ⟨final, (Lib.run_cons _ _ _ _ _).mpr ⟨next, taken, ran⟩, result⟩

/-- Over any run no index or null entry faults, each live thread is in exactly one of the two
queues at each dispatch, and the scheduler returns when the last live thread has exited. -/
theorem scheduler_conserves_threads [DecidableEq T] (fd : T → Int) (polled : FdSet)
    (blocking : Blocking) (threads : List T) (entries : List Entry) (nonempty : threads ≠ [])
    (distinct : threads.Nodup) (bound : threads.length ≤ threadMax) :
    ∃ first final, start fd polled blocking threads = some first ∧
      Lib.run (Machine.step fd) first entries = some final ∧ final.Conserved threads := by
  obtain ⟨first, started, tracks⟩ := start_tracks fd polled blocking threads nonempty bound
  obtain ⟨final, ran, tracked⟩ := run_tracks fd tracks entries
  exact ⟨first, final, started, ran, tracked.conserved distinct⟩

def Blocking.all : Blocking := ⟨id, fun _ _ watched => watched, fun _ watched => watched⟩

theorem scheduler_conserves_two_threads :
    ∃ first final, start (fun thread : Nat => thread) (fun _ => true) Blocking.all [3, 4] = some first ∧
      Lib.run (Machine.step fun thread : Nat => thread) first
        [⟨.asyncRead, by decide, fun _ => false, .all⟩, ⟨.exit, by decide, fun _ => true, .all⟩] =
        some final ∧ final.Conserved [3, 4] :=
  scheduler_conserves_threads _ _ _ [3, 4] _ (by decide) (by decide) (by decide)

end SPHomework.Threads
