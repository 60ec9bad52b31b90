import SPHomework.Threads.Conservation

set_option autoImplicit false

/-!
# Whose turn it is

The ready queue is served in the order of its slots. A thread that is not
running keeps its slot until it is dispatched, except when it is the last one
and fills the slot of a thread that leaves; then it is dispatched at once.
-/

namespace SPHomework.Threads

variable {T : Type}

namespace Queues

theorem retire_get (queues : Queues T) {index : Nat} {thread : T}
    (here : queues.ready[index]? = some thread) (apart : index ≠ queues.current) :
    queues.retire.ready[index]? = some thread ∨
      index + 1 = queues.ready.length ∧ (queues.current + 1 < queues.ready.length →
        queues.retire.ready[queues.current]? = some thread) := by
  have inside := (List.getElem?_eq_some_iff.mp here).1
  have nonempty : queues.ready ≠ [] := List.ne_nil_of_length_pos (by omega)
  have last : queues.ready.getLast? = queues.ready[queues.ready.length - 1]? := List.getLast?_eq_getElem?
  simp only [retire, List.getLast?_eq_getLast_of_ne_nil nonempty] at last ⊢
  rw [List.getElem?_dropLast, List.length_set]
  by_cases early : index < queues.ready.length - 1
  · rw [if_pos early, List.getElem?_set_ne (Ne.symm apart)]
    exact .inl here
  · -- the last thread of the queue fills the slot
    obtain rfl : index = queues.ready.length - 1 := by omega
    refine .inr ⟨by omega, fun below => ?_⟩
    rw [List.getElem?_dropLast, List.length_set, if_pos (by omega), List.getElem?_set_self (by omega), last]
    exact here

theorem retire_subset (queues : Queues T) (valid : queues.current < queues.ready.length) {thread : T}
    (left : thread ∈ queues.retire.ready) : thread ∈ queues.ready :=
  (queues.retire_ready valid).mem_iff.mp (List.mem_cons_of_mem _ left)

-- The thread that leaves is no longer in the ready queue.
theorem retire_absent (queues : Queues T) (up : T → Bool) (valid : queues.current < queues.ready.length)
    (distinct : queues.threads.Nodup) : queues.ready[queues.current] ∉ (queues.wake up).retire.ready := by
  have inside := queues.wake_valid up valid
  have removed := (queues.wake up).retire_ready inside
  have once : (queues.wake up).ready.Nodup :=
    (List.nodup_append.mp ((queues.wake_threads up).nodup_iff.mpr distinct)).1
  have same : (queues.wake up).ready[(queues.wake up).current] = queues.ready[queues.current] :=
    List.getElem_append_left valid
  rw [same] at removed
  exact (List.nodup_cons.mp (removed.nodup_iff.mpr once)).1

theorem Resumes.get {left next : Queues T} (resumes : left.Resumes next) {index : Nat} {thread : T}
    (here : left.ready[index]? = some thread) :
    next.ready[index]? = some thread ∧ next.current = left.current := by
  cases resumes with
  | ready => exact ⟨here, rfl⟩
  | woken up empty => simp [empty] at here

/-- A thread that is not running keeps its slot, and the current slot goes on by one, stays where it is
or starts again behind the last one; or the thread fills the current slot, as the last one. -/
theorem Goes.slot {before after : Queues T} (goes : before.Goes after)
    (valid : before.current < before.ready.length) {index : Nat} {thread : T}
    (here : before.ready[index]? = some thread) (apart : index ≠ before.current) :
    after.ready[index]? = some thread ∧ (after.current = before.current + 1 ∨
        after.current = before.current ∨ after.current = 0 ∧ index < before.current) ∨
      after.ready[after.current]? = some thread ∧ after.current = before.current ∧
        before.current < index := by
  -- for both ways to leave
  have leaves : ∀ (up : T → Bool) (left next : Queues T), left.ready = (before.wake up).retire.ready →
      left.current = (before.wake up).retire.current → left.Resumes next →
      next.ready[index]? = some thread ∧ (next.current = before.current + 1 ∨
        next.current = before.current ∨ next.current = 0 ∧ index < before.current) ∨
      next.ready[next.current]? = some thread ∧ next.current = before.current ∧
        before.current < index := by
    intro up left next ready current resumes
    have woken := before.wake_get up here
    have inside := before.wake_valid up valid
    have below := (List.getElem?_eq_some_iff.mp woken).1
    have moved : left.ready[index]? = some thread ∨ index + 1 = (before.wake up).ready.length ∧
        (before.current + 1 < (before.wake up).ready.length → left.ready[before.current]? = some thread) := by
      rw [ready]
      exact (before.wake up).retire_get woken apart
    have current : left.current =
        if before.current + 1 = (before.wake up).ready.length then 0 else before.current := current
    have inside : before.current < (before.wake up).ready.length := inside
    rcases moved with stays | ⟨last, fills⟩
    · obtain ⟨kept, same⟩ := resumes.get stays
      rw [same, current]
      refine .inl ⟨kept, ?_⟩
      split_ifs <;> omega
    · have filled := fills (by omega)
      obtain ⟨kept, same⟩ := resumes.get filled
      rw [if_neg (by omega)] at current
      rw [same, current]
      exact .inr ⟨kept, rfl, by omega⟩
  obtain ⟨up, jmpval, again, serves⟩ := goes
  cases serves with
  | first => exact absurd rfl again
  | yield =>
    have woken := before.wake_get up here
    have below := (List.getElem?_eq_some_iff.mp woken).1
    have current : (before.wake up).advance.current =
        if before.current + 1 = (before.wake up).ready.length then 0 else before.current + 1 := rfl
    refine .inl ⟨woken, ?_⟩
    rw [current]
    split_ifs <;> omega
  | asyncRead thread' running resumes =>
    exact leaves up ((before.wake up).suspend thread').retire after rfl rfl resumes
  | exit resumes => exact leaves up (before.wake up).retire after rfl rfl resumes

def running (queues : Queues T) : Option T := queues.ready[queues.current]?

structure Sound (queues : Queues T) : Prop where
  valid : queues.current < queues.ready.length
  distinct : queues.threads.Nodup

theorem Sound.slot {queues : Queues T} (sound : queues.Sound) {thread : T} {index : Nat}
    (here : queues.ready[index]? = some thread) (runs : queues.running = some thread) :
    index = queues.current := by
  have distinct : queues.ready.Nodup := (List.nodup_append.mp sound.distinct).1
  have inside := (List.getElem?_eq_some_iff.mp here).1
  exact (List.getElem?_inj inside distinct).mp (here.trans runs.symm)

/-- Since the dispatch in the slot `p`, the thread in the slot `q` has not run: the current slot has gone on
from `p` without coming to `q`, or it has started again and is before both. -/
structure Unserved (other : T) (p q : Nat) (queues : Queues T) : Prop where
  other : queues.ready[q]? = some other
  current : p ≤ queues.current ∧ (q < p ∨ queues.current < q) ∨ queues.current < q ∧ q < p

theorem Goes.unserved {before after : Queues T} (goes : before.Goes after) (sound : before.Sound)
    {other : T} {p q : Nat} (since : Unserved other p q before)
    (unserved : after.running ≠ some other) : Unserved other p q after := by
  have position := since.current
  rcases goes.slot sound.valid since.other (by omega) with ⟨kept, current⟩ | ⟨served, -, -⟩
  · have apart : after.current ≠ q := fun same => unserved (by rw [running, same, kept])
    exact ⟨kept, by omega⟩
  · exact absurd served unserved

/-- Since `runner` was dispatched in its slot `p`, the current slot has not come to the slot `q`:
it is still behind `p`, or it has started again and is before both. -/
structure Passing (runner other : T) (p q : Nat) (queues : Queues T) : Prop where
  runner : queues.ready[p]? = some runner
  other : queues.ready[q]? = some other
  current : p < queues.current ∧ (q < p ∨ queues.current < q) ∨ queues.current < q ∧ q < p

theorem Goes.starts {before after : Queues T} (goes : before.Goes after) (sound : before.Sound)
    (sound' : after.Sound) {runner other : T} {q : Nat} (runs : before.running = some runner)
    (here : before.ready[q]? = some other) (apart : q ≠ before.current) (stays : runner ∈ after.ready)
    (unserved : after.running ≠ some other) :
    Passing runner other before.current q after ∧ after.running ≠ some runner := by
  have inside := (List.getElem?_eq_some_iff.mp here).1
  have valid := sound.valid
  -- a thread that leaves is not in the ready queue, unless it was alone there
  have leaves : ∀ (up : T → Bool) (left : Queues T), left.ready = (before.wake up).retire.ready →
      ¬ left.Resumes after := by
    intro up left ready resumes
    have removed := (before.wake up).retire_ready (before.wake_valid up valid)
    have absent := before.retire_absent up valid sound.distinct
    rw [running, List.getElem?_eq_getElem valid, Option.some.injEq] at runs
    rw [runs] at absent
    cases resumes with
    | ready => exact absent (ready ▸ stays)
    | woken up' empty =>
      have length := removed.length_eq
      rw [← ready, empty] at length
      simp only [wake, List.length_cons, List.length_nil, List.length_append] at length
      omega
  obtain ⟨up, jmpval, again, serves⟩ := goes
  cases serves with
  | first => exact absurd rfl again
  | yield =>
    have kept := before.wake_get up here
    have mine := before.wake_get up runs
    have below := (List.getElem?_eq_some_iff.mp kept).1
    have current : (before.wake up).advance.current =
        if before.current + 1 = (before.wake up).ready.length then 0 else before.current + 1 := rfl
    have elsewhere : (before.wake up).advance.current ≠ q := fun same =>
      unserved (by rw [running, same]; exact kept)
    constructor
    · refine ⟨mine, kept, ?_⟩
      rw [current] at elsewhere ⊢
      split_ifs at elsewhere ⊢ <;> omega
    · intro again
      have same := sound'.slot mine again
      rw [current] at same
      split_ifs at same <;> omega
  | asyncRead thread running resumes =>
    exact absurd resumes (leaves up ((before.wake up).suspend thread).retire rfl)
  | exit resumes => exact absurd resumes (leaves up (before.wake up).retire rfl)

theorem Goes.passing {before after : Queues T} (goes : before.Goes after) (sound : before.Sound)
    (sound' : after.Sound) {runner other : T} {p q : Nat} (passing : Passing runner other p q before)
    (unserved : after.running ≠ some other) :
    Passing runner other p q after ∧ after.running ≠ some runner ∨
      after.running = some runner ∧ after.current < q ∧ q < p := by
  have position := passing.current
  rcases goes.slot sound.valid passing.other (by omega) with ⟨kept, current⟩ | ⟨served, -, -⟩
  · have elsewhere : after.current ≠ q := fun same => unserved (by rw [running, same, kept])
    rcases goes.slot sound.valid passing.runner (by omega) with ⟨mine, current'⟩ | ⟨runs, same, above⟩
    · refine .inl ⟨⟨mine, kept, by omega⟩, fun again => ?_⟩
      have same := sound'.slot mine again
      omega
    · exact .inr ⟨runs, by omega, by omega⟩
  · exact absurd served unserved

-- The queues at one dispatch after the other.
theorem path_unserved (path : List (Queues T)) (start final : Queues T)
    (chain : List.IsChain Goes (start :: (path ++ [final])))
    (sound : ∀ queues ∈ start :: (path ++ [final]), queues.Sound)
    {other : T} {p q : Nat} (since : Unserved other p q start)
    (unserved : ∀ queues ∈ path ++ [final], queues.running ≠ some other) : Unserved other p q final := by
  induction path generalizing start with
  | nil =>
    have goes : start.Goes final := (List.isChain_cons_cons.mp chain).1
    exact goes.unserved (sound start List.mem_cons_self) since (unserved final List.mem_cons_self)
  | cons next path ih =>
    obtain ⟨goes, chain⟩ := List.isChain_cons_cons.mp chain
    have since := goes.unserved (sound start List.mem_cons_self) since (unserved next List.mem_cons_self)
    exact ih next chain (fun queues member => sound queues (List.mem_cons_of_mem _ member)) since
      fun queues member => unserved queues (List.mem_cons_of_mem _ member)

theorem path_passing (path : List (Queues T)) (start final : Queues T)
    (chain : List.IsChain Goes (start :: (path ++ [final])))
    (sound : ∀ queues ∈ start :: (path ++ [final]), queues.Sound) {runner other : T} {p q : Nat}
    (passing : Passing runner other p q start)
    (unserved : ∀ queues ∈ path ++ [final], queues.running ≠ some other)
    (absent : ∀ queues ∈ path, queues.running ≠ some runner) (again : final.running = some runner) :
    final.current < q ∧ q < p := by
  induction path generalizing start with
  | nil =>
    have goes : start.Goes final := (List.isChain_cons_cons.mp chain).1
    rcases goes.passing (sound start (by simp)) (sound final (by simp)) passing
      (unserved final List.mem_cons_self) with ⟨-, other⟩ | ⟨-, moved⟩
    · exact absurd again other
    · exact moved
  | cons next path ih =>
    obtain ⟨goes, chain⟩ := List.isChain_cons_cons.mp chain
    rcases goes.passing (sound start (by simp)) (sound next (by simp)) passing
      (unserved next List.mem_cons_self) with ⟨kept, -⟩ | ⟨runs, -⟩
    · exact ih next chain (fun queues member => sound queues (List.mem_cons_of_mem _ member)) kept
        (fun queues member => unserved queues (List.mem_cons_of_mem _ member))
        fun queues member => absent queues (List.mem_cons_of_mem _ member)
    · exact absurd runs (absent next List.mem_cons_self)

-- From one turn of `runner` to its next one, while it stays in the ready queue.
theorem path_turns (path : List (Queues T)) (start final : Queues T)
    (chain : List.IsChain Goes (start :: (path ++ [final])))
    (sound : ∀ queues ∈ start :: (path ++ [final]), queues.Sound) {runner other : T} {q : Nat}
    (runs : start.running = some runner) (again : final.running = some runner)
    (here : start.ready[q]? = some other) (apart : q ≠ start.current)
    (unserved : ∀ queues ∈ path ++ [final], queues.running ≠ some other)
    (absent : ∀ queues ∈ path, queues.running ≠ some runner) (stays : ∀ queues ∈ path, runner ∈ queues.ready) :
    final.current < q ∧ q < start.current := by
  cases path with
  | nil =>
    have goes : start.Goes final := (List.isChain_cons_cons.mp chain).1
    have starts := goes.starts (sound start (by simp)) (sound final (by simp)) runs here apart
      (List.mem_of_getElem? again) (unserved final (by simp))
    exact absurd again starts.2
  | cons next path =>
    obtain ⟨goes, chain⟩ := List.isChain_cons_cons.mp chain
    have starts := goes.starts (sound start (by simp)) (sound next (by simp)) runs here apart
      (stays next (by simp)) (unserved next (by simp))
    exact path_passing path next final chain
      (fun queues member => sound queues (List.mem_cons_of_mem _ member)) starts.1
      (fun queues member => unserved queues (List.mem_cons_of_mem _ member))
      (fun queues member => absent queues (List.mem_cons_of_mem _ member)) again

end Queues

/-- What an entry that dispatches a thread does to the queues, and who is ready then. -/
theorem scheduler_serves (fd : T → Int) (polled : FdSet) (blocking : Blocking) {jmpval : Jump} {state after : Sched T}
    {thread : T} {queues next : Queues T} (refines : Refines state queues) (sound : queues.Sound)
    (ran : scheduler fd jmpval polled blocking state = some (after, .dispatch thread))
    (refined : Refines after next) :
    queues.Serves (fun thread => polled (fd thread)) jmpval next ∧ ∀ other ∈ next.ready,
      other ∈ (queues.wake fun thread => polled (fd thread)).ready ∧
          (jmpval = .asyncRead → queues.running ≠ some other) ∨
        ∃ set, blockedOn fd jmpval polled state = some set ∧ blocking.answer set (fd other) = true := by
  have valid := sound.valid
  have inside := queues.wake_valid (fun thread => polled (fd thread)) valid
  have reached : ∀ left, Reaches (scheduler fd jmpval polled blocking state) left → left = next := by
    rintro left ⟨after', _, ran', refined', -⟩
    obtain ⟨rfl, -⟩ := Prod.mk.inj (Option.some.inj (ran'.symm.trans ran))
    exact refined'.unique refined
  cases jmpval with
  | first =>
    obtain rfl := reached _ (first_reaches fd polled blocking refines valid)
    exact ⟨.first, fun other ready => .inl ⟨ready, by simp⟩⟩
  | yield =>
    obtain rfl := reached _ (yield_reaches fd polled blocking refines valid)
    exact ⟨.yield, fun other ready => .inl ⟨ready, by simp⟩⟩
  | asyncRead =>
    obtain ⟨left, resumes, answered, reaches⟩ := asyncRead_reaches fd polled blocking refines valid
    obtain rfl := reached _ reaches
    refine ⟨.asyncRead _ (List.getElem?_eq_getElem valid) resumes, fun other ready => ?_⟩
    refine (answered other ready).imp_left fun left => ⟨Queues.retire_subset _ inside left, fun _ runs => ?_⟩
    rw [Queues.running, List.getElem?_eq_getElem valid, Option.some.injEq] at runs
    exact queues.retire_absent _ valid sound.distinct (runs ▸ left)
  | exit =>
    obtain ⟨done, others⟩ := exit_reaches fd polled blocking refines valid
    have some_ : (queues.wake fun thread => polled (fd thread)).retire.threads ≠ [] := by
      intro none_
      obtain ⟨_, ran', -⟩ := done none_
      cases ran.symm.trans ran'
    obtain ⟨left, resumes, answered, reaches⟩ := others some_
    obtain rfl := reached _ reaches
    refine ⟨.exit resumes, fun other ready => ?_⟩
    exact (answered other ready).imp_left fun left => ⟨Queues.retire_subset _ inside left, by simp⟩

def Machine.ready : Machine T → List (Option T)
  | .running state _ _ => (List.range state.rqSize).map state.readyQueue
  | .returned state _ _ => (List.range state.rqSize).map state.readyQueue

def Machine.current : Machine T → Nat
  | .running state _ _ => state.rqCurrent
  | .returned state _ _ => state.rqCurrent

-- `RUNNING`, until the scheduler returns.
def Machine.dispatched : Machine T → Option T
  | .running state _ _ => Threads.running state
  | .returned _ _ _ => none

structure Machine.Stands (machine : Machine T) (queues : Queues T) : Prop where
  sound : queues.Sound
  refines : ∃ state live exited, machine = .running state live exited ∧ Refines state queues

theorem Machine.Stands.ready {machine : Machine T} {queues : Queues T} (stands : machine.Stands queues) :
    machine.ready = queues.ready.map some := by
  obtain ⟨state, live, exited, rfl, refines⟩ := stands.refines
  exact refines.ready.map_range

theorem Machine.Stands.current {machine : Machine T} {queues : Queues T} (stands : machine.Stands queues) :
    machine.current = queues.current := by
  obtain ⟨state, live, exited, rfl, refines⟩ := stands.refines
  exact refines.current

theorem Machine.Stands.dispatched {machine : Machine T} {queues : Queues T}
    (stands : machine.Stands queues) : machine.dispatched = queues.running := by
  obtain ⟨state, live, exited, rfl, refines⟩ := stands.refines
  rw [Machine.dispatched, running_refines refines stands.sound.valid, Queues.running,
    List.getElem?_eq_getElem stands.sound.valid]

theorem Machine.Tracks.stands {threads : List T} {state : Sched T} {live exited : List T}
    (tracks : (Machine.running state live exited).Tracks threads) (distinct : threads.Nodup) :
    ∃ queues, (Machine.running state live exited).Stands queues := by
  obtain ⟨all, queues, refines, valid, same⟩ := tracks
  have once := (List.nodup_append.mp (all.nodup_iff.mpr distinct)).1
  exact ⟨queues, ⟨valid, same.nodup_iff.mpr once⟩, state, live, exited, rfl, refines⟩

theorem stands_mem {machines : List (Machine T)} {path : List (Queues T)}
    (all : List.Forall₂ Machine.Stands machines path) {queues : Queues T} (member : queues ∈ path) :
    ∃ machine ∈ machines, machine.Stands queues := by
  induction all with
  | nil => cases member
  | cons stands rest ih =>
    rcases List.mem_cons.mp member with rfl | further
    · exact ⟨_, List.mem_cons_self, stands⟩
    · obtain ⟨machine, inside, stands⟩ := ih further
      exact ⟨machine, List.mem_cons_of_mem _ inside, stands⟩

section

variable [DecidableEq T] (fd : T → Int)

theorem Machine.Stands.goes {threads : List T} (distinct : threads.Nodup) {machine next : Machine T}
    {queues : Queues T} {thread : T} (stands : machine.Stands queues) (tracks : machine.Tracks threads)
    (entry : Entry) (taken : machine.step fd entry = some next) (runs : next.dispatched = some thread) :
    ∃ queues', next.Stands queues' ∧ queues.Goes queues' := by
  obtain ⟨after, result, tracked⟩ := Machine.step_tracks fd tracks entry
  obtain rfl := Option.some.inj (result.symm.trans taken)
  obtain ⟨state, live, exited, rfl, refines⟩ := stands.refines
  have valid := stands.sound.valid
  have here := running_refines refines valid
  cases after with
  | returned => cases runs
  | running state' live' exited' =>
    obtain ⟨queues', stands'⟩ := tracked.stands distinct
    obtain ⟨_, _, _, same, refines'⟩ := stands'.refines
    obtain ⟨rfl, -, -⟩ := Machine.running.inj same
    obtain ⟨thread', ran⟩ : ∃ thread',
        scheduler fd entry.jmpval entry.polled entry.blocking state = some (state', .dispatch thread') := by
      cases ran : scheduler fd entry.jmpval entry.polled entry.blocking state with
      | none => simp [Machine.step, here, ran] at taken
      | some result =>
        obtain ⟨after, outcome⟩ := result
        simp only [Machine.step, here, ran, Option.bind_eq_bind, Option.bind_some] at taken
        cases outcome with
        | returned => split_ifs at taken <;> cases taken
        | dispatch thread' => split_ifs at taken <;> cases taken <;> exact ⟨thread', rfl⟩
    exact ⟨queues', stands', _, _, entry.reentry,
      (scheduler_serves fd entry.polled entry.blocking refines stands.sound ran refines').1⟩

theorem returned_trail (state : Sched T) (live exited : List T) (entries : List Entry)
    {machines : List (Machine T)}
    (went : Lib.trail (Machine.step fd) (.returned state live exited) entries = some machines) :
    ∀ machine ∈ machines, machine.dispatched = none := by
  induction entries generalizing machines with
  | nil =>
    obtain rfl := Option.some.inj went
    exact fun machine none => by cases none
  | cons entry rest ih =>
    obtain ⟨next, later, taken, continued, rfl⟩ := (Lib.trail_cons _ _ _ _ _).mp went
    obtain rfl := Option.some.inj taken
    exact List.forall_mem_cons.mpr ⟨rfl, ih continued⟩

theorem trail_path {threads : List T} (distinct : threads.Nodup) (middle : List (Machine T))
    {now later : Machine T} {queues : Queues T} {thread : T} (entries : List Entry)
    (stands : now.Stands queues) (tracks : now.Tracks threads)
    (went : Lib.trail (Machine.step fd) now entries = some (middle ++ [later]))
    (runs : later.dispatched = some thread) :
    ∃ path final, List.Forall₂ Machine.Stands middle path ∧ later.Stands final ∧
      List.IsChain Queues.Goes (queues :: (path ++ [final])) := by
  induction middle generalizing now queues entries with
  | nil =>
    cases entries with
    | nil => cases went
    | cons entry rest =>
      obtain ⟨next, states, taken, -, same⟩ := (Lib.trail_cons _ _ _ _ _).mp went
      obtain ⟨rfl, -⟩ := List.cons.inj same
      obtain ⟨final, stands', goes⟩ := stands.goes fd distinct tracks entry taken runs
      exact ⟨[], final, .nil, stands', .cons_cons goes (.singleton final)⟩
  | cons machine middle ih =>
    cases entries with
    | nil => cases went
    | cons entry rest =>
      obtain ⟨next, states, taken, continued, same⟩ := (Lib.trail_cons _ _ _ _ _).mp went
      obtain ⟨rfl, rfl⟩ := List.cons.inj same
      obtain ⟨after, result, tracked⟩ := Machine.step_tracks fd tracks entry
      obtain rfl := Option.some.inj (result.symm.trans taken)
      cases after with
      | returned state live exited =>
        have none := returned_trail fd state live exited rest continued later (by simp)
        exact absurd (runs.symm.trans none) (Option.some_ne_none _)
      | running state live exited =>
        obtain ⟨queues', stands'⟩ := tracked.stands distinct
        have runs' := stands'.dispatched.trans (List.getElem?_eq_getElem stands'.sound.valid)
        obtain ⟨next, stands'', goes⟩ := stands.goes fd distinct tracks entry taken runs'
        obtain ⟨path, final, all, last, chain⟩ := ih rest stands'' tracked continued
        exact ⟨next :: path, final, .cons stands'' all, last, .cons_cons goes chain⟩

/-- Between two dispatches of `runner`, `other` has its turn. The exceptions are these: `runner` is back in a
slot before its old one, and `other` is between the two; or `runner` has left the ready queue meanwhile and
is back in its old slot or behind it, and `other` is before its old slot or behind its new one. -/
theorem overtaking_bound (polled : FdSet) (blocking : Blocking) (threads : List T) (nonempty : threads ≠ [])
    (distinct : threads.Nodup) (bound : threads.length ≤ threadMax) (earlier entries : List Entry)
    (first now later : Machine T) (middle : List (Machine T))
    (started : start fd polled blocking threads = some first)
    (ran : Lib.run (Machine.step fd) first earlier = some now)
    (went : Lib.trail (Machine.step fd) now entries = some (middle ++ [later]))
    (runner other : T) (different : other ≠ runner) (q : Nat)
    (one : now.dispatched = some runner) (two : later.dispatched = some runner)
    (consecutive : ∀ machine ∈ middle, machine.dispatched ≠ some runner)
    (slot : now.ready[q]? = some (some other)) :
    ((∀ machine ∈ middle, some runner ∈ machine.ready) →
      (∃ machine ∈ middle, machine.dispatched = some other) ∨ later.current < q ∧ q < now.current) ∧
    (later.current < now.current →
      (∃ machine ∈ middle, machine.dispatched = some other) ∨ later.current < q ∧ q < now.current) ∧
    (now.current < q → q ≤ later.current → ∃ machine ∈ middle, machine.dispatched = some other) := by
  obtain ⟨_, started', tracks⟩ := start_tracks fd polled blocking threads nonempty bound
  obtain rfl := Option.some.inj (started.symm.trans started')
  obtain ⟨_, ran', tracks⟩ := run_tracks fd tracks earlier
  obtain rfl := Option.some.inj (ran.symm.trans ran')
  obtain ⟨queues, stands⟩ : ∃ queues, now.Stands queues := by
    cases now with
    | returned => cases one
    | running => exact tracks.stands distinct
  obtain ⟨path, final, all, last, chain⟩ := trail_path fd distinct middle entries stands tracks went two
  rw [stands.dispatched] at one
  rw [last.dispatched] at two
  rw [stands.ready, List.getElem?_map, Option.map_eq_some_iff] at slot
  obtain ⟨_, slot, same⟩ := slot
  rw [Option.some.inj same] at slot
  rw [stands.current, last.current]
  by_cases served : ∃ machine ∈ middle, machine.dispatched = some other
  · exact ⟨fun _ => .inl served, fun _ => .inl served, fun _ _ => served⟩
  have unserved : ∀ queues ∈ path ++ [final], queues.running ≠ some other := by
    intro queues member runs
    rcases List.mem_append.mp member with inside | atEnd
    · obtain ⟨machine, visited, stands⟩ := stands_mem all inside
      exact served ⟨machine, visited, stands.dispatched.trans runs⟩
    · rw [List.mem_singleton.mp atEnd, two, Option.some.injEq] at runs
      exact different runs.symm
  have absent : ∀ queues ∈ path, queues.running ≠ some runner := by
    intro queues member runs
    obtain ⟨machine, visited, stands⟩ := stands_mem all member
    exact consecutive machine visited (stands.dispatched.trans runs)
  have sound : ∀ next ∈ queues :: (path ++ [final]), next.Sound := by
    intro next member
    rcases List.mem_cons.mp member with rfl | further
    · exact stands.sound
    · rcases List.mem_append.mp further with inside | atEnd
      · obtain ⟨machine, -, stands⟩ := stands_mem all inside
        exact stands.sound
      · exact List.mem_singleton.mp atEnd ▸ last.sound
  have apart : q ≠ queues.current := by
    rintro rfl
    exact different (Option.some.inj (slot.symm.trans one))
  have since : Queues.Unserved other queues.current q queues := ⟨slot, by omega⟩
  have position := (Queues.path_unserved path queues final chain sound since unserved).current
  refine ⟨fun stays => .inr ?_, fun _ => .inr (by omega), fun _ _ => absurd position (by omega)⟩
  refine Queues.path_turns path queues final chain sound one two slot apart unserved absent ?_
  intro next member
  obtain ⟨machine, visited, stands⟩ := stands_mem all member
  have inside := stays machine visited
  rw [stands.ready, List.mem_map] at inside
  obtain ⟨thread, inside, same⟩ := inside
  exact Option.some.inj same ▸ inside

-- Thread 3 leaves for a read, and is back in the first slot when thread 0 exits: thread 4 has had its turn.
theorem overtaking_bound_six :
    ∃ first now later : Machine Nat, ∃ middle,
      start (fun thread : Nat => (thread : Int)) (fun _ => false) .all [0, 1, 2, 3, 4, 5] = some first ∧
      Lib.run (Machine.step fun thread : Nat => (thread : Int)) first
        (List.replicate 3 ⟨.yield, by decide, fun _ => false, .all⟩) = some now ∧
      Lib.trail (Machine.step fun thread : Nat => (thread : Int)) now
        [⟨.asyncRead, by decide, fun _ => false, .all⟩, ⟨.yield, by decide, fun _ => false, .all⟩,
          ⟨.yield, by decide, fun _ => false, .all⟩, ⟨.exit, by decide, fun _ => true, .all⟩] =
          some (middle ++ [later]) ∧
      now.dispatched = some 3 ∧ later.dispatched = some 3 ∧
      (∃ machine ∈ middle, machine.dispatched = some 4) ∧ ∀ machine ∈ middle, machine.dispatched ≠ some 1 := by
  obtain ⟨first, now, later, middle, started, ran, went, one, two, absent, slot, before, passed⟩ :
      ∃ first now later : Machine Nat, ∃ middle,
        start (fun thread : Nat => (thread : Int)) (fun _ => false) .all [0, 1, 2, 3, 4, 5] = some first ∧
        Lib.run (Machine.step fun thread : Nat => (thread : Int)) first
          (List.replicate 3 ⟨.yield, by decide, fun _ => false, .all⟩) = some now ∧
        Lib.trail (Machine.step fun thread : Nat => (thread : Int)) now
          [⟨.asyncRead, by decide, fun _ => false, .all⟩, ⟨.yield, by decide, fun _ => false, .all⟩,
            ⟨.yield, by decide, fun _ => false, .all⟩, ⟨.exit, by decide, fun _ => true, .all⟩] =
            some (middle ++ [later]) ∧
        now.dispatched = some 3 ∧ later.dispatched = some 3 ∧
        (∀ machine ∈ middle, machine.dispatched ≠ some 3) ∧ now.ready[4]? = some (some 4) ∧
        (now.current = 3 ∧ later.current = 0) ∧ ∀ machine ∈ middle, machine.dispatched ≠ some 1 :=
    ⟨_, _, _, [_, _, _], rfl, rfl, rfl, by decide, by decide, by decide, by decide, by decide, by decide⟩
  refine ⟨first, now, later, middle, started, ran, went, one, two, ?_, passed⟩
  have bound := overtaking_bound (fun thread : Nat => (thread : Int)) (fun _ => false) .all [0, 1, 2, 3, 4, 5]
    (by decide) (by decide) (by decide) _ _ first now later middle started ran went 3 4 (by decide) 4 one two
    absent slot
  exact (bound.2.1 (by omega)).resolve_right (by omega)

-- Thread 0 leaves for a read, and thread 2 fills its slot: it runs again before thread 1 has run. And
-- thread 1 leaves for a read and is the last one when it is back: it runs again before thread 0 has.
theorem ready_thread_passed_twice :
    (∃ first now later : Machine Nat, ∃ middle,
      start (fun thread : Nat => (thread : Int)) (fun _ => false) .all [0, 1, 2] = some first ∧
      Lib.run (Machine.step fun thread : Nat => (thread : Int)) first
        [⟨.yield, by decide, fun _ => false, .all⟩, ⟨.yield, by decide, fun _ => false, .all⟩] =
          some now ∧
      Lib.trail (Machine.step fun thread : Nat => (thread : Int)) now
        [⟨.yield, by decide, fun _ => false, .all⟩, ⟨.asyncRead, by decide, fun _ => false, .all⟩] =
          some (middle ++ [later]) ∧
      now.dispatched = some 2 ∧ later.dispatched = some 2 ∧
      (∀ machine ∈ now :: (middle ++ [later]), some 1 ∈ machine.ready) ∧
      ∀ machine ∈ middle, machine.dispatched ≠ some 1) ∧
    (∃ first now later : Machine Nat, ∃ middle,
      start (fun thread : Nat => (thread : Int)) (fun _ => false) .all [0, 1, 2] = some first ∧
      Lib.run (Machine.step fun thread : Nat => (thread : Int)) first
        [⟨.yield, by decide, fun _ => false, .all⟩] = some now ∧
      Lib.trail (Machine.step fun thread : Nat => (thread : Int)) now
        [⟨.asyncRead, by decide, fun _ => false, .all⟩, ⟨.yield, by decide, fun _ => true, .all⟩] =
          some (middle ++ [later]) ∧
      now.dispatched = some 1 ∧ later.dispatched = some 1 ∧
      (∀ machine ∈ now :: (middle ++ [later]), some 0 ∈ machine.ready) ∧
      ∀ machine ∈ middle, machine.dispatched ≠ some 0) :=
  ⟨⟨_, _, _, [_], rfl, rfl, rfl, by decide, by decide, by decide, by decide⟩,
    ⟨_, _, _, [_], rfl, rfl, rfl, by decide, by decide, by decide, by decide⟩⟩

end

end SPHomework.Threads
