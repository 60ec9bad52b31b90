import Mathlib.Tactic
import SPHomework.Threads.Scheduler

set_option autoImplicit false

/-!
# What the two arrays stand for

`Queues` is the scheduler's state as two lists. Each loop over the arrays
refines one list operation: the wake-up loop is a stable partition, and the
removal of the running thread moves the last ready thread into its place.
-/

namespace SPHomework.Threads

variable {T : Type}

structure Queues (T : Type) where
  ready : List T
  current : Nat
  waiting : List T

namespace Queues

def wake (up : T → Bool) (queues : Queues T) : Queues T :=
  { queues with
    ready := queues.ready ++ queues.waiting.filter up
    waiting := queues.waiting.filter (fun thread => !up thread) }

theorem wake_congr {up up' : T → Bool} (queues : Queues T) (same : ∀ thread ∈ queues.waiting, up thread = up' thread) :
    queues.wake up = queues.wake up' := by
  have kept : queues.waiting.filter (fun thread => !up thread) = queues.waiting.filter fun thread => !up' thread :=
    List.filter_congr fun thread waits => by rw [same thread waits]
  rw [wake, wake, List.filter_congr same, kept]

def advance (queues : Queues T) : Queues T :=
  { queues with
    current := if queues.current + 1 = queues.ready.length then 0 else queues.current + 1 }

def retire (queues : Queues T) : Queues T :=
  { queues with
    ready :=
      match queues.ready.getLast? with
      | none => []
      | some last => (queues.ready.set queues.current last).dropLast
    current := if queues.current + 1 = queues.ready.length then 0 else queues.current }

def suspend (thread : T) (queues : Queues T) : Queues T :=
  { queues with waiting := queues.waiting ++ [thread] }

def threads (queues : Queues T) : List T := queues.ready ++ queues.waiting

theorem wake_threads (up : T → Bool) (queues : Queues T) :
    (queues.wake up).threads.Perm queues.threads := by
  have parts := List.filter_append_perm up queues.waiting
  simpa [wake, threads, List.append_assoc] using parts.append_left queues.ready

theorem advance_current (queues : Queues T) (valid : queues.current < queues.ready.length) :
    queues.advance.current < queues.advance.ready.length := by
  simp only [advance]
  split <;> omega

theorem set_last_perm (xs : List T) (last : T) (index : Nat) (inside : index < xs.length) :
    (xs[index] :: xs.set index last).Perm (xs ++ [last]) := by
  have split : xs = xs.take index ++ xs[index] :: xs.drop (index + 1) := by simp
  calc
    (xs[index] :: xs.set index last).Perm
        (xs[index] :: (xs.take index ++ last :: xs.drop (index + 1))) := by
      rw [List.set_eq_take_append_cons_drop, if_pos inside]
    _ |>.Perm (xs[index] :: last :: (xs.take index ++ xs.drop (index + 1))) :=
      List.perm_middle.cons _
    _ |>.Perm (last :: xs[index] :: (xs.take index ++ xs.drop (index + 1))) := List.Perm.swap _ _ _
    _ |>.Perm (last :: (xs.take index ++ xs[index] :: xs.drop (index + 1))) :=
      (List.perm_middle.symm).cons _
    _ |>.Perm (xs ++ [last]) := by
      rw [← split]
      exact (List.perm_append_singleton last xs).symm

theorem retire_ready (queues : Queues T) (valid : queues.current < queues.ready.length) :
    (queues.ready[queues.current] :: queues.retire.ready).Perm queues.ready := by
  obtain ⟨ready, current, waiting⟩ := queues
  simp only at valid ⊢
  induction ready using List.reverseRecOn with
  | nil => simp at valid
  | append_singleton front last _ =>
    simp only [retire, List.getLast?_append, List.getLast?_singleton, Option.some_or]
    by_cases inside : current < front.length
    · rw [List.set_append_left _ _ inside, List.dropLast_concat, List.getElem_append_left inside]
      exact set_last_perm front last current inside
    · have atEnd : current = front.length := by simp at valid; omega
      subst atEnd
      simpa using (List.perm_append_singleton last front).symm

theorem retire_length (queues : Queues T) (valid : queues.current < queues.ready.length) :
    queues.retire.ready.length + 1 = queues.ready.length := by
  simpa using (queues.retire_ready valid).length_eq

theorem retire_current (queues : Queues T) (valid : queues.current < queues.ready.length)
    (others : queues.retire.ready ≠ []) : queues.retire.current < queues.retire.ready.length := by
  have length := queues.retire_length valid
  have positive := List.length_pos_iff.mpr others
  simp only [retire] at length positive ⊢
  split <;> omega

-- The running thread has left; where nobody else was ready, somebody is woken first.
inductive Resumes (left : Queues T) : Queues T → Prop where
  | ready (others : left.ready ≠ []) : Resumes left left
  | woken (up : T → Bool) (empty : left.ready = []) : Resumes left (left.wake up)

/-- What an entry of the scheduler does to the queues, when somebody is left. `up` are the threads that the
poll finds ready. -/
inductive Serves (before : Queues T) (up : T → Bool) : Jump → Queues T → Prop where
  | first : Serves before up .first (before.wake up)
  | yield : Serves before up .yield (before.wake up).advance
  | asyncRead {next : Queues T} (thread : T) (here : before.ready[before.current]? = some thread)
    (resumes : ((before.wake up).suspend thread).retire.Resumes next) : Serves before up .asyncRead next
  | exit {next : Queues T} (resumes : (before.wake up).retire.Resumes next) : Serves before up .exit next

-- An entry by the running thread.
def Goes (before after : Queues T) : Prop := ∃ up jmpval, jmpval ≠ .first ∧ before.Serves up jmpval after

theorem Resumes.threads {left next : Queues T} (resumes : left.Resumes next) :
    next.threads.Perm left.threads := by
  cases resumes with
  | ready => exact .refl _
  | woken up => exact left.wake_threads up

theorem suspend_retire (queues : Queues T) (valid : queues.current < queues.ready.length) {thread : T}
    (here : queues.ready[queues.current]? = some thread) :
    (queues.suspend thread).retire.threads.Perm queues.threads := by
  have removed := queues.retire_ready valid
  rw [List.getElem?_eq_getElem valid, Option.some.injEq] at here
  rw [here] at removed
  calc
    (queues.retire.ready ++ (queues.waiting ++ [thread])).Perm
        (thread :: (queues.retire.ready ++ queues.waiting)) := by
      rw [← List.append_assoc]
      exact List.perm_append_singleton _ _
    _ |>.Perm (queues.ready ++ queues.waiting) := removed.append_right _

theorem wake_valid (up : T → Bool) (queues : Queues T) (valid : queues.current < queues.ready.length) :
    (queues.wake up).current < (queues.wake up).ready.length := by
  simp only [wake, List.length_append]
  omega

theorem wake_get (up : T → Bool) (queues : Queues T) {index : Nat} {thread : T}
    (here : queues.ready[index]? = some thread) : (queues.wake up).ready[index]? = some thread := by
  have inside := (List.getElem?_eq_some_iff.mp here).1
  simp only [wake]
  rw [List.getElem?_append_left inside]
  exact here

end Queues

/-- The first `size` entries of an array are the pointers of a list. -/
def Holds (queue : Slots T) (size : Nat) (threads : List T) : Prop :=
  threads.length = size ∧ ∀ index, index < size → queue index = threads[index]?

theorem Holds.get {queue : Slots T} {size : Nat} {threads : List T} (holds : Holds queue size threads)
    (index : Nat) (inside : index < threads.length) : queue index = some threads[index] := by
  rw [holds.2 index (holds.1 ▸ inside), List.getElem?_eq_getElem inside]

theorem Holds.push {queue : Slots T} {size : Nat} {threads : List T}
    (holds : Holds queue size threads) (thread : T) :
    Holds (Function.update queue size (some thread)) (size + 1) (threads ++ [thread]) := by
  obtain ⟨rfl, entries⟩ := holds
  refine ⟨by simp, fun index inside => ?_⟩
  by_cases last : index = threads.length
  · simp [last]
  · have before : index < threads.length := by omega
    simp [Function.update_of_ne last, entries index before, List.getElem?_append_left before]

theorem Holds.set {queue : Slots T} {size : Nat} {threads : List T}
    (holds : Holds queue size threads) (index : Nat) (thread : T) :
    Holds (Function.update queue index (some thread)) size (threads.set index thread) := by
  obtain ⟨rfl, entries⟩ := holds
  refine ⟨by simp, fun other inside => ?_⟩
  by_cases same : other = index
  · subst same
    simp [inside]
  · simp [Function.update_of_ne same, entries other inside, List.getElem?_set_ne (Ne.symm same)]

theorem Holds.dropLast {queue : Slots T} {size : Nat} {threads : List T}
    (holds : Holds queue size threads) : Holds queue (size - 1) threads.dropLast := by
  obtain ⟨rfl, entries⟩ := holds
  refine ⟨by simp, fun index inside => ?_⟩
  rw [entries index (by omega), List.getElem?_dropLast, if_pos inside]

theorem Holds.map_range {queue : Slots T} {size : Nat} {threads : List T}
    (holds : Holds queue size threads) : (List.range size).map queue = threads.map some := by
  obtain ⟨rfl, entries⟩ := holds
  apply List.ext_getElem (by simp)
  intro index inside _
  simp only [List.length_map, List.length_range] at inside
  simp [entries index inside, inside]

theorem Holds.unique {queue : Slots T} {size : Nat} {threads threads' : List T}
    (holds : Holds queue size threads) (holds' : Holds queue size threads') : threads = threads' := by
  apply List.map_injective_iff.mpr (Option.some_injective T)
  rw [← holds.map_range, ← holds'.map_range]

theorem load_eq (queue : Slots T) {index : Nat} (bound : index < threadMax) :
    load queue index = some (queue index) := if_pos bound

theorem store_eq (queue : Slots T) {index : Nat} (bound : index < threadMax) (entry : Option T) :
    store queue index entry = some (Function.update queue index entry) := if_pos bound

theorem deref_holds {queue : Slots T} {size : Nat} {threads : List T}
    (holds : Holds queue size threads) (bound : size ≤ threadMax) (index : Nat)
    (inside : index < threads.length) : deref queue index = some threads[index] := by
  have within : index < threadMax := by have := holds.1; omega
  simp [deref, load_eq queue within, holds.get index inside]

theorem shiftLeft_loop (count first : Nat) (queue : Slots T) (bound : first + count < threadMax) :
    ∃ shifted,
      (List.range' first count).foldlM
        (fun queue index => do
          let entry ← load queue (index + 1)
          store queue index entry) queue = some shifted ∧
      ∀ index, shifted index =
        if first ≤ index ∧ index < first + count then queue (index + 1) else queue index := by
  -- each round copies one entry, and the rest of the loop sees it moved
  induction count generalizing first queue with
  | zero => exact ⟨queue, rfl, fun index => by rw [if_neg (by omega)]⟩
  | succ count ih =>
    obtain ⟨shifted, ran, entries⟩ :=
      ih (first + 1) (Function.update queue first (queue (first + 1))) (by omega)
    refine ⟨shifted, ?_, fun index => ?_⟩
    · simpa [List.range'_succ, load_eq queue (show first + 1 < threadMax by omega),
        store_eq queue (show first < threadMax by omega)] using ran
    · rw [entries index]
      by_cases here : index = first
      · subst here
        simp
      · have skipped : index + 1 ≠ first ∨ index + 1 = first := by omega
        simp only [Function.update_apply, here, if_false]
        split_ifs <;> first | rfl | omega

theorem shiftLeft_holds {queue : Slots T} {size : Nat} {threads : List T}
    (holds : Holds queue size threads) (bound : size ≤ threadMax) (index : Nat)
    (inside : index < threads.length) :
    ∃ shifted, shiftLeft (Function.update queue index none) index size = some shifted ∧
      Holds shifted (size - 1) (threads.eraseIdx index) := by
  have length := holds.1
  obtain ⟨shifted, ran, entries⟩ := shiftLeft_loop (size - 1 - index) index
    (Function.update queue index none) (by omega)
  refine ⟨shifted, ran, by rw [List.length_eraseIdx_of_lt inside, length], fun other before => ?_⟩
  rw [entries other, List.getElem?_eraseIdx]
  by_cases left : other < index
  · rw [if_neg (by omega), if_pos left, Function.update_of_ne (by omega), holds.2 other (by omega)]
  · rw [if_pos (by omega), if_neg left, Function.update_of_ne (by omega),
      holds.2 (other + 1) (by omega)]

/-- The arrays and their sizes stand for the two lists, and all threads fit. -/
structure Refines (state : Sched T) (queues : Queues T) : Prop where
  ready : Holds state.readyQueue state.rqSize queues.ready
  waiting : Holds state.waitingQueue state.wqSize queues.waiting
  current : state.rqCurrent = queues.current
  fits : queues.threads.length ≤ threadMax

theorem Refines.sizes {state : Sched T} {queues : Queues T} (refines : Refines state queues) :
    state.rqSize = queues.ready.length ∧ state.wqSize = queues.waiting.length ∧
      queues.ready.length + queues.waiting.length ≤ threadMax := by
  refine ⟨refines.ready.1.symm, refines.waiting.1.symm, ?_⟩
  simpa [Queues.threads] using refines.fits

theorem Refines.unique {state : Sched T} {queues queues' : Queues T} (refines : Refines state queues)
    (refines' : Refines state queues') : queues = queues' := by
  obtain ⟨ready, current, waiting⟩ := queues
  obtain ⟨ready', current', waiting'⟩ := queues'
  obtain rfl : ready = ready' := refines.ready.unique refines'.ready
  obtain rfl : waiting = waiting' := refines.waiting.unique refines'.waiting
  obtain rfl : current = current' := refines.current.symm.trans refines'.current
  rfl

theorem waitingSet_loop (fd : T → Int) (queue : Slots T) (threads : List T) (count : Nat)
    (holds : Holds queue threads.length threads) (bound : threads.length ≤ threadMax)
    (inside : count ≤ threads.length) :
    ∃ set, (List.range count).foldlM
        (fun (set : FdSet) index => do
          let thread ← deref queue index
          return Function.update set (fd thread) true) (fun _ => false) = some set ∧
      ∀ number, set number = true ↔ ∃ thread ∈ threads.take count, fd thread = number := by
  induction count with
  | zero => exact ⟨_, rfl, by simp⟩
  | succ count ih =>
    obtain ⟨set, ran, members⟩ := ih (by omega)
    have here := deref_holds holds bound count (by omega)
    refine ⟨Function.update set (fd threads[count]) true, ?_, fun number => ?_⟩
    · rw [List.range_succ, List.foldlM_append, ran]
      simp [here]
    · rw [List.take_succ_eq_append_getElem (by omega)]
      simp only [List.mem_append, List.mem_singleton, or_and_right, exists_or, exists_eq_left,
        ← members number]
      by_cases same : number = fd threads[count]
      · simp [same]
      · simp [Function.update_of_ne same, Ne.symm same]

theorem waitingSet_refines (fd : T → Int) {state : Sched T} {queues : Queues T}
    (refines : Refines state queues) :
    ∃ set, waitingSet fd state = some set ∧
      ∀ number, set number = true ↔ ∃ thread ∈ queues.waiting, fd thread = number := by
  obtain ⟨_, waitingSize, fits⟩ := refines.sizes
  have holds := refines.waiting
  rw [waitingSize] at holds
  obtain ⟨set, ran, members⟩ := waitingSet_loop fd state.waitingQueue queues.waiting
    queues.waiting.length holds (by omega) le_rfl
  refine ⟨set, by rw [waitingSet, waitingSize]; exact ran, ?_⟩
  simpa using members

/-- The loop invariant of the wake-up loop: `kept` was scanned and stays, `todo` is still to scan. -/
theorem wakeLoop_refines (fd : T → Int) (set : FdSet) (fuel : Nat) (state : Sched T)
    (ready kept todo : List T) (current : Nat)
    (refines : Refines state ⟨ready, current, kept ++ todo⟩) (enough : todo.length ≤ fuel) :
    ∃ woken, wakeLoop fd set fuel kept.length state = some woken ∧
      Refines woken ⟨ready ++ todo.filter (fun thread => set (fd thread)), current,
        kept ++ todo.filter (fun thread => !set (fd thread))⟩ := by
  induction todo generalizing fuel state ready kept with
  | nil =>
    have done : ¬ kept.length < state.wqSize := by simp [refines.sizes.2.1]
    refine ⟨state, ?_, by simpa using refines⟩
    cases fuel <;> simp [wakeLoop, done]
  | cons thread todo ih =>
    obtain ⟨fuel, rfl⟩ : ∃ more, fuel = more + 1 := ⟨fuel - 1, by simp at enough; omega⟩
    obtain ⟨readySize, waitingSize, fits⟩ := refines.sizes
    simp only [List.length_append, List.length_cons] at readySize waitingSize fits enough
    have inside : kept.length < state.wqSize := by omega
    have here : deref state.waitingQueue kept.length = some thread := by
      simpa using deref_holds refines.waiting (by omega) kept.length (by simp)
    -- a ready thread leaves `todo` for the end of the ready queue, any other joins `kept`
    by_cases up : set (fd thread) = true
    · obtain ⟨shifted, ran, holds⟩ :=
        shiftLeft_holds refines.waiting (by omega) kept.length (by simp)
      rw [List.eraseIdx_append_of_length_le le_rfl] at holds
      have pushed := refines.ready.push thread
      obtain ⟨woken, continued, result⟩ := ih fuel
        { state with
          readyQueue := Function.update state.readyQueue state.rqSize (some thread)
          rqSize := state.rqSize + 1
          waitingQueue := shifted
          wqSize := state.wqSize - 1 }
        (ready ++ [thread]) kept
        ⟨pushed, by simpa using holds, refines.current, by simp [Queues.threads]; omega⟩ (by omega)
      refine ⟨woken, ?_, by simpa [up] using result⟩
      simpa [wakeLoop, inside, here, up, ran,
        store_eq state.readyQueue (show state.rqSize < threadMax by omega),
        store_eq state.waitingQueue (show kept.length < threadMax by omega)] using continued
    · obtain ⟨woken, continued, result⟩ := ih fuel state ready (kept ++ [thread])
        (by simpa using refines) (by omega)
      refine ⟨woken, ?_, by simpa [up] using result⟩
      simpa [wakeLoop, inside, here, up] using continued

theorem wake_refines (fd : T → Int) (set : FdSet) {state : Sched T} {queues : Queues T}
    (refines : Refines state queues) :
    ∃ woken, wake fd set state = some woken ∧
      Refines woken (queues.wake fun thread => set (fd thread)) := by
  have size := refines.sizes.2.1
  exact wakeLoop_refines fd set state.wqSize state queues.ready [] queues.waiting queues.current
    (by simpa using refines) (by omega)

-- Rounds after the end of the loop change nothing.
theorem wakeLoop_more (fd : T → Int) (set : FdSet) (fuel more index : Nat) (state woken : Sched T)
    (enough : fuel ≤ more) (ran : wakeLoop fd set fuel index state = some woken) :
    wakeLoop fd set more index state = some woken := by
  induction fuel generalizing more index state with
  | zero =>
    simp only [wakeLoop] at ran
    split_ifs at ran with inside
    cases more <;> simpa [wakeLoop, inside] using ran
  | succ fuel ih =>
    obtain ⟨more, rfl⟩ : ∃ less, more = less + 1 := ⟨more - 1, by omega⟩
    have enough : fuel ≤ more := by omega
    by_cases inside : index < state.wqSize
    · simp only [wakeLoop, if_pos inside, Option.bind_eq_bind, Option.bind_eq_some_iff] at ran ⊢
      obtain ⟨thread, here, ran⟩ := ran
      refine ⟨thread, here, ?_⟩
      by_cases up : set (fd thread) = true
      · rw [if_pos up] at ran ⊢
        simp only [Option.bind_eq_some_iff] at ran ⊢
        obtain ⟨readyQueue, pushed, cleared, emptied, waitingQueue, shifted, ran⟩ := ran
        exact ⟨readyQueue, pushed, cleared, emptied, waitingQueue, shifted, ih more index _ enough ran⟩
      · rw [if_neg up] at ran ⊢
        exact ih more (index + 1) state enough ran
    · simpa [wakeLoop, inside] using ran

theorem Holds.kept {before after : Slots T} {size size' : Nat} {threads more : List T}
    (holds : Holds before size threads) (holds' : Holds after size' (threads ++ more)) (index : Nat)
    (inside : index < size) : after index = before index := by
  have within : index < threads.length := holds.1 ▸ inside
  have total := holds'.1
  rw [List.length_append] at total
  rw [holds.2 index inside, holds'.2 index (by omega), List.getElem?_append_left within]

/-- The wake-up loop is a stable partition of the waiting queue, and it ends. -/
theorem wake_partition (fd : T → Int) (set : FdSet) (state : Sched T) (ready waiting : List T)
    (readyQueue : Holds state.readyQueue state.rqSize ready)
    (waitingQueue : Holds state.waitingQueue state.wqSize waiting)
    (fits : ready.length + waiting.length ≤ threadMax) :
    ∃ woken, wake fd set state = some woken ∧
      (∀ fuel, state.wqSize ≤ fuel → wakeLoop fd set fuel 0 state = some woken) ∧
      Holds woken.readyQueue woken.rqSize (ready ++ waiting.filter fun thread => set (fd thread)) ∧
      Holds woken.waitingQueue woken.wqSize (waiting.filter fun thread => !set (fd thread)) ∧
      woken.rqSize = state.rqSize + waiting.countP (fun thread => set (fd thread)) ∧
      woken.wqSize = state.wqSize - waiting.countP (fun thread => set (fd thread)) ∧
      (∀ index, index < state.rqSize → woken.readyQueue index = state.readyQueue index) ∧
      woken.rqCurrent = state.rqCurrent := by
  have refines : Refines state ⟨ready, state.rqCurrent, waiting⟩ :=
    ⟨readyQueue, waitingQueue, rfl, by simpa [Queues.threads] using fits⟩
  obtain ⟨woken, ran, result⟩ := wake_refines fd set refines
  obtain ⟨readySize, waitingSize, _⟩ := result.sizes
  have parts := (List.filter_append_perm (fun thread => set (fd thread)) waiting).length_eq
  simp only [Queues.wake, List.length_append, ← List.countP_eq_length_filter] at readySize waitingSize parts
  refine ⟨woken, ran, fun fuel enough => wakeLoop_more fd set _ _ _ _ _ enough ran, result.ready,
    result.waiting, ?_, ?_, readyQueue.kept result.ready, result.current⟩
  · rw [readySize, readyQueue.1]
  · have left : waiting.length = state.wqSize := waitingQueue.1
    omega

-- The second and the third waiting thread are ready together.
theorem wake_partition_neighbours :
    ∃ woken, wake (fun thread : Nat => (thread : Int)) (fun number => decide (number < 7))
        ⟨fun index => [1, 2][index]?, fun index => [8, 5, 6, 9][index]?, 2, 1, 4⟩ = some woken ∧
      Holds woken.readyQueue woken.rqSize [1, 2, 5, 6] ∧ Holds woken.waitingQueue woken.wqSize [8, 9] ∧
      woken.rqCurrent = 1 := by
  obtain ⟨woken, ran, _, ready, waiting, _, _, _, current⟩ :=
    wake_partition (fun thread : Nat => (thread : Int)) (fun number => decide (number < 7))
      ⟨fun index => [1, 2][index]?, fun index => [8, 5, 6, 9][index]?, 2, 1, 4⟩ [1, 2] [8, 5, 6, 9]
      ⟨rfl, fun _ _ => rfl⟩ ⟨rfl, fun _ _ => rfl⟩ (by decide)
  exact ⟨woken, ran, ready, waiting, current⟩

end SPHomework.Threads
