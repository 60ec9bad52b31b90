import SPHomework.MovieSort.Processes
import SPHomework.MovieSort.Service

set_option autoImplicit false

/-!
# The process server from its inputs to its file

`main` opens the file of its only request, has its processes sort the matches and
then writes them, unless it is itself the process that exits in the sort.
-/

namespace SPHomework.MovieSort

open Lib

def pOut (id : Int) : CStr := outputName id ['p', '.', 'o', 'u', 't']

-- In layer 3 a process does not come back from its call.
theorem Proc.flat_step {layers l r : Nat} {proc next : Proc layers} {job : Option Job}
    (flat : layers = 0) (does : Does .main true l r proc next job)
    (before : proc ≠ returned ∧ proc ≠ inMain) : next ≠ returned ∧ next ≠ inMain := by
  cases does with
  | merges => exact absurd flat (Nat.succ_ne_zero _)
  | leaves => exact absurd rfl before.1
  | _ => exact ⟨nofun, nofun⟩

namespace World

variable {S : Type} [Score S] {numOfMovies n : Nat} {filtered : Arrays S} {moves : List Move}

/-- In any order of the processes no assertion fails, and once the call has returned the entries are in
order. -/
theorem sorts (nonempty : 1 ≤ n) (bound : n ≤ numOfMovies) (proper : ∀ i < n, Proper (filtered.cell i))
    {world : World S (3 - startLayer n)}
    (ran : run (step numOfMovies n) (start (Shared.ofArrays filtered)) moves = some world) :
    world.memory.isSome ∧ (world.original = .inMain → ∃ shared, ∃ order : List (Entry S),
      world.memory = some shared ∧ order.Perm (filtered.slice 0 n) ∧ order.Pairwise Before ∧
      shared.view.slice 0 n = order.map decorate) := by
  obtain ⟨-, -, jobs, memory, before⟩ := run_does numOfMovies n _ world moves ran
  have proper' : ∀ entry ∈ filtered.slice 0 n, Proper entry := by
    intro entry member
    obtain ⟨i, inside, rfl⟩ := mem_slice.mp member
    exact proper i inside.2
  have wide := startLayer_fits n nonempty
  have correct := processMergeSort_correct numOfMovies (3 - startLayer n) 0 n true
    (Shared.ofArrays filtered) (by omega) (by omega) (fun _ _ => rfl) proper'
  have whole : ∀ rest, world.original.Rest 0 n rest → Par.Safe Shared.cell (Set.Ico 0 n)
      (fun now => now.Kept (filtered.slice 0 n) 0 n) (fun now => now.Sorted (filtered.slice 0 n) 0 n)
      ((jobs ++ rest).map (Job.inProcesses numOfMovies)) (Shared.ofArrays filtered) := by
    intro rest after
    have taken : (processPlan (3 - startLayer n) 0 n).Trace (jobs ++ rest) := before rest after
    apply correct
    rw [← processMergeSort_plan]
    exact taken.par
  constructor
  · obtain ⟨rest, after⟩ := world.original.exists_rest 0 n
    have safe := whole rest after
    rw [List.map_append] at safe
    obtain ⟨shared, went, -⟩ := safe.throughout (List.prefix_append _ _)
    rw [memory.trans went]
    rfl
  · intro back
    have safe := whole [] (by rw [back]; rfl)
    rw [List.append_nil] at safe
    obtain ⟨shared, went, arranged, -⟩ := safe.execute
    obtain ⟨order, perm, sorted, cells⟩ := arranged.order proper'
    exact ⟨shared, order, memory.trans went, perm, sorted, cells.symm⟩

theorem confined {layers : Nat} {world : World S layers} {shared : Shared S}
    (ran : run (step numOfMovies n) (start shared) moves = some world) :
    ∀ path ∈ world.original.returnedIn, path = [] ∧ Caller.main = .main := by
  obtain ⟨-, kept, -⟩ := run_does numOfMovies n _ world moves ran
  exact fun path member => ⟨kept (fun path member => absurd member List.not_mem_nil) path member, rfl⟩

-- When no process can go on, the original one is back in `main`, or it has exited in layer 3.
theorem stuck_ends {world : World S (3 - startLayer n)} {shared : Shared S}
    (ran : run (step numOfMovies n) (start shared) moves = some world)
    (stuck : ∀ move, step numOfMovies n world move = none) :
    if 10 ≤ n then world.original = .inMain else world.original = .exited := by
  have ends : world.original = .exited ∨ world.original = .inMain := by
    by_contra going
    obtain ⟨running, inside⟩ := not_or.mp going
    obtain ⟨move, next, goes⟩ :=
      Proc.step_exists .main true 0 n world.original (confined ran) running inside
    have blocked := (step_none numOfMovies n world move).mp (stuck move)
    exact absurd (goes.symm.trans blocked) (Option.some_ne_none _)
  split_ifs with enough
  · have deep : 3 - startLayer n ≠ 0 := by
      unfold startLayer
      split_ifs <;> omega
    exact ends.resolve_left (run_stays numOfMovies n deep _ world moves ran).2
  · have flat : 3 - startLayer n = 0 := by simp [startLayer, Nat.not_le.mp enough]
    have inside := run_invariant (step numOfMovies n)
      (fun world => world.original ≠ .returned ∧ world.original ≠ .inMain) (fun world move next before taken => by
        obtain ⟨job, does, -⟩ := step_does numOfMovies n world next move taken
        exact Proc.flat_step flat does before) _ world moves (by simp [start]) ran
    exact ends.resolve_right inside.2

end World

/-- pserver from its call of `process_merge_sort` on: the processes of the sort, the files, and whether
`main` has written its lines and returned. -/
structure Pserver (S : Type) (layers : Nat) where
  world : World S layers
  files : CStr → Option (List CStr)
  returned : Bool

inductive Act where
  | move (move : Move)
  | print

namespace Pserver

variable {S : Type} [Score S] {layers : Nat}

-- The file is there, and empty, since `fopen`.
def start (disk : CStr → Option (List CStr)) (id : Int) (filtered : Arrays S) : Pserver S layers where
  world := .start (Shared.ofArrays filtered)
  files := Function.update disk (pOut id) (some [])
  returned := false

def step (numOfMovies n : Nat) (id : Int) (server : Pserver S layers) : Act → Option (Pserver S layers)
  | .move move =>
    (World.step numOfMovies n server.world move).map fun world => { server with world := world }
  | .print =>
    match server.returned, server.world.original with
    | false, .inMain => server.world.memory.map fun shared =>
      { server with
        files := Function.update server.files (pOut id) (some (printed shared.view n))
        returned := true }
    | _, _ => none

/-- The file of the request is empty until `main` writes it, and `main` writes it after the sort. -/
structure Ordered (numOfMovies n : Nat) (disk : CStr → Option (List CStr)) (id : Int) (filtered : Arrays S)
    (server : Pserver S layers) : Prop where
  sorted : ∃ moves, run (World.step numOfMovies n) (.start (Shared.ofArrays filtered)) moves =
    some server.world
  waiting : server.returned = false → server.files = Function.update disk (pOut id) (some [])
  written : server.returned = true → server.world.original = .inMain ∧ ∃ shared,
    server.world.memory = some shared ∧
      server.files = Function.update disk (pOut id) (some (printed shared.view n))

def left (server : Pserver S layers) : Nat :=
  server.world.original.remaining + if server.returned then 0 else 1

variable {numOfMovies n : Nat} {disk : CStr → Option (List CStr)} {id : Int} {filtered : Arrays S}
  {server next : Pserver S layers} {act : Act} {acts : List Act}

theorem print_some (taken : step numOfMovies n id server .print = some next) :
    server.returned = false ∧ server.world.original = .inMain ∧ ∃ shared, server.world.memory = some shared ∧
      next = { server with
        files := Function.update server.files (pOut id) (some (printed shared.view n))
        returned := true } := by
  simp only [step] at taken
  split at taken
  · rename_i running back
    obtain ⟨shared, here, rfl⟩ := Option.map_eq_some_iff.mp taken
    exact ⟨running, back, shared, here, rfl⟩
  · exact absurd taken (by simp)

theorem Ordered.step (ordered : Ordered numOfMovies n disk id filtered server)
    (taken : Pserver.step numOfMovies n id server act = some next) :
    Ordered numOfMovies n disk id filtered next := by
  obtain ⟨⟨moves, ran⟩, waiting, written⟩ := ordered
  cases act with
  | move move =>
    obtain ⟨world, moved, rfl⟩ := Option.map_eq_some_iff.mp taken
    refine ⟨⟨moves ++ [move], (run_append ..).mpr ⟨_, ran, (run_cons ..).mpr ⟨world, moved, rfl⟩⟩⟩, waiting, ?_⟩
    -- no process is left to move once `main` has written the file
    intro returned
    have stopped := (World.step_none numOfMovies n server.world move).mpr (by
      rw [(written returned).1, Proc.step_over])
    exact absurd (stopped.symm.trans moved) (by simp)
  | print =>
    obtain ⟨running, back, shared, here, rfl⟩ := print_some taken
    refine ⟨⟨moves, ran⟩, nofun, fun _ => ⟨back, shared, here, ?_⟩⟩
    rw [waiting running, Function.update_idem]

theorem Ordered.begin : Ordered numOfMovies n disk id filtered (start disk id filtered : Pserver S layers) :=
  ⟨⟨[], rfl⟩, fun _ => rfl, nofun⟩

theorem step_left (taken : Pserver.step numOfMovies n id server act = some next) :
    next.left + 1 ≤ server.left := by
  cases act with
  | move move =>
    obtain ⟨world, moved, rfl⟩ := Option.map_eq_some_iff.mp taken
    obtain ⟨job, does, -⟩ := World.step_does numOfMovies n server.world world move moved
    have less := Proc.remaining_step does
    simp only [left]
    omega
  | print =>
    obtain ⟨running, -, shared, -, rfl⟩ := print_some taken
    simp [left, running]

theorem exists_end (numOfMovies n : Nat) (id : Int) (server : Pserver S layers) :
    ∃ more final, run (Pserver.step numOfMovies n id) server more = some final ∧
      ∀ act, Pserver.step numOfMovies n id final act = none := by
  obtain ⟨more, final, ran, -, stuck⟩ := run_to_end (Pserver.step numOfMovies n id) (fun _ => True)
    (fun _ => true) left (fun _ _ _ _ _ => trivial) (fun _ _ _ _ taken => step_left taken) server trivial
  exact ⟨more, final, ran, fun act => stuck act rfl⟩

theorem run_short (ran : run (Pserver.step numOfMovies n id) (start disk id filtered) acts = some server) :
    acts.length ≤ Proc.cost layers + 1 := by
  have bounded := run_measure (Pserver.step numOfMovies n id) (fun _ => True) (fun _ => true) left
    (fun _ _ _ _ _ => trivial) (fun _ _ _ _ taken => step_left taken) _ server acts trivial ran
  rw [List.countP_true] at bounded
  have whole : (start disk id filtered : Pserver S layers).left = Proc.cost layers + 1 := by
    simp [left, start, World.start, Proc.remaining]
  omega

/-- When nothing is left to do, the file has the answer to the request, or it is empty if fewer than 10
movies match. -/
theorem outcome {P : Type} {dot : P → P → S} {request : Request P} {table : List (MovieProfile P)}
    {arrays : Arrays S} {server : Pserver S (3 - startLayer n)}
    (above : ∀ movie ∈ table, ∀ byte ∈ movie.title, 9 < byte)
    (nonneg : ∀ movie ∈ table, 0 ≤ dot movie.profile request.profile)
    (nonempty : 1 ≤ (matching dot request table).length)
    (filtering : filterMovies (fun _ title => title) dot request table arrays = (n, filtered))
    (ran : run (Pserver.step table.length n id) (start disk id filtered) acts = some server)
    (stuck : ∀ act, Pserver.step table.length n id server act = none) :
    (if 10 ≤ n then ∃ lines, server.files (pOut id) = some lines ∧ Answer (matching dot request table) lines
      else server.files (pOut id) = some []) ∧
      ∀ name, name ≠ pOut id → server.files name = disk name := by
  obtain ⟨count, few, slice⟩ := filterMovies_slice filtering fun _ _ _ => rfl
  have proper : ∀ i < n, Proper (filtered.cell i) := fun i inside =>
    matching_proper dot request table above nonneg _ (slice ▸ mem_slice.mpr ⟨i, ⟨Nat.zero_le i, inside⟩, rfl⟩)
  have ordered := run_invariant _ (Ordered table.length n disk id filtered)
    (fun _ _ _ ordered taken => ordered.step taken) _ _ _ .begin ran
  obtain ⟨moves, sorting⟩ := ordered.sorted
  obtain ⟨memory, sorted⟩ := World.sorts (count ▸ nonempty) (by omega) proper sorting
  have ends := World.stuck_ends sorting fun move => Option.map_eq_none_iff.mp (stuck (.move move))
  by_cases enough : 10 ≤ n
  · rw [if_pos enough] at ends ⊢
    obtain ⟨shared, order, here, perm, before, cells⟩ := sorted ends
    have written : server.returned = true := by
      by_contra running
      have waiting : server.returned = false := by simpa using running
      have blocked := stuck .print
      simp [Pserver.step, ends, here, waiting] at blocked
    obtain ⟨-, shared', here', files⟩ := ordered.written written
    obtain rfl := Option.some.inj (here.symm.trans here')
    rw [files]
    refine ⟨⟨_, Function.update_self .., order, slice ▸ perm, before, ?_⟩, fun name other =>
      Function.update_of_ne other _ _⟩
    rw [printed_slice, cells, List.map_map]
    rfl
  · rw [if_neg enough] at ends ⊢
    have waiting : server.returned = false := by
      by_contra written
      have back := (ordered.written (by simpa using written)).1
      exact absurd (ends.symm.trans back) nofun
    rw [ordered.waiting waiting]
    exact ⟨Function.update_self .., fun name other => Function.update_of_ne other _ _⟩

end Pserver

section

variable {D : Type} [Double D] [Score D]

/-- What the runs of pserver come to, from its call of `process_merge_sort` on the matches. -/
structure Pserver.Serves (rows : List Row) (wish : Wish) (disk : CStr → Option (List CStr)) (n : Nat)
    (filtered : Arrays D) : Prop where
  short : ∀ acts (server : Pserver D (3 - startLayer n)),
    run (step (loadedRows (D := D) rows).table.length n (integerValue wish.id))
      (start disk (integerValue wish.id) filtered) acts = some server →
    acts.length ≤ Proc.cost (3 - startLayer n) + 1 ∧ ∃ more final,
      run (step (loadedRows (D := D) rows).table.length n (integerValue wish.id)) server more = some final ∧
        ∀ act, step (loadedRows (D := D) rows).table.length n (integerValue wish.id) final act = none
  answered : ∀ acts (server : Pserver D (3 - startLayer n)),
    run (step (loadedRows (D := D) rows).table.length n (integerValue wish.id))
      (start disk (integerValue wish.id) filtered) acts = some server →
    (∀ act, step (loadedRows (D := D) rows).table.length n (integerValue wish.id) server act = none) →
    (if 10 ≤ n then ∃ lines, server.files (pOut (integerValue wish.id)) = some lines ∧
        Answer (candidates rows wish : List (Entry D)) lines
      else server.files (pOut (integerValue wish.id)) = some []) ∧
      ∀ name, name ≠ pOut (integerValue wish.id) → server.files name = disk name

/-- From the bytes of the movie file and of the standard input to the file of the first request, in every
order of the processes and of their waits. -/
theorem pserver_answers (header : CStr) (rows : List Row) (batch : Batch) (wish : Wish) (rest : List Wish)
    (oneLine : 10 ∉ header) (short : header.length < maxLen - 1) (few : rows.length ≤ maxMovies)
    (first : batch.wishes = wish :: rest) (above : ∀ row ∈ rows, ∀ byte ∈ row.title, 9 < byte)
    (nonneg : ∀ row ∈ rows, (0 : D) ≤ dot row.profile wish.profile)
    (found : ∃ row ∈ rows, wanted wish.keywords row.title = true) (arrays : Arrays D)
    (disk : CStr → Option (List CStr)) :
    ∃ reqs n filtered, load (movieFile header rows) batch.text = some (loadedRows (D := D) rows, reqs) ∧
      reqs.head? = some wish.request ∧ n = (candidates rows wish : List (Entry D)).length ∧
      filterMovies (fun _ title => title) dot wish.request (loadedRows rows).table arrays = (n, filtered) ∧
      Pserver.Serves rows wish disk n filtered := by
  obtain ⟨n, filtered, filtering⟩ : ∃ n filtered, filterMovies (fun _ title => title) dot
      (wish.request : Request (List D)) (loadedRows rows).table arrays = (n, filtered) := ⟨_, _, rfl⟩
  have entries : matching dot wish.request (loadedRows rows).table = (candidates rows wish : List (Entry D)) :=
    loadedRows_table (D := D) rows few ▸ matching_rows rows wish
  have movies : ∀ movie ∈ (loadedRows (D := D) rows).table, ∃ row ∈ rows, row.entry = movie := by
    rw [loadedRows_table rows few]
    exact fun movie inside => List.mem_map.mp inside
  have nonempty : 1 ≤ (matching dot wish.request (loadedRows (D := D) rows).table).length := by
    obtain ⟨row, here, chosen⟩ := found
    rw [entries, candidates, List.length_map]
    exact List.length_pos_of_mem (List.mem_filter.mpr ⟨here, chosen⟩)
  refine ⟨batch.requests, n, filtered, load_text header rows batch oneLine short few, ?_, ?_, filtering, ?_, ?_⟩
  · rw [Batch.requests, first]
    rfl
  · rw [(filterMovies_slice filtering fun _ _ _ => rfl).1, entries]
  · exact fun acts server ran => ⟨Pserver.run_short ran, Pserver.exists_end _ _ _ server⟩
  · intro acts server ran stuck
    rw [← entries]
    refine Pserver.outcome ?_ ?_ nonempty filtering ran stuck
    · intro movie inside
      obtain ⟨row, here, rfl⟩ := movies movie inside
      exact above row here
    · intro movie inside
      obtain ⟨row, here, rfl⟩ := movies movie inside
      exact nonneg row here

-- Ten times the same movie, so that the halves are sorted in processes of their own.
theorem pserver_answers_ten : ∃ n filtered, n = 10 ∧
    Pserver.Serves (D := Int) (List.replicate 10 sampleRow)
      (sampleWish (ofChars ['-', '3']) (by decide) (by decide)) (fun _ => none) n filtered := by
  have plain : ∀ row ∈ List.replicate 10 sampleRow, row = sampleRow := fun row member =>
    List.eq_of_mem_replicate member
  obtain ⟨reqs, n, filtered, -, -, count, -, serves⟩ := pserver_answers (D := Int) (ofChars ['i', 'd'])
    (List.replicate 10 sampleRow) sampleBatch (sampleWish (ofChars ['-', '3']) (by decide) (by decide))
    [sampleWish (ofChars ['8']) (by decide) (by decide)] (by decide) (by decide) (by decide) rfl
    (fun row member => by rw [plain row member]; simp [sampleRow, ofChars, ascii])
    (fun row member => by rw [plain row member]; decide +kernel)
    ⟨sampleRow, by simp, by decide +kernel⟩ ⟨fun _ => [], fun _ => 0⟩ (fun _ => none)
  exact ⟨n, filtered, count.trans (by decide +kernel), serves⟩

end

end SPHomework.MovieSort
