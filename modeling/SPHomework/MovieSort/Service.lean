import SPHomework.MovieSort.Requests

set_option autoImplicit false

/-!
# The thread server from its inputs to its files

Every run of the batch ends. What the files hold then depends only on the rows of
the movie file and on the requests, as they were written.
-/

namespace SPHomework.MovieSort

open Lib
open Threads (intMin intMax)

section

variable {P S : Type} [Score S] {dot : P → P → S} {table : List (MovieProfile P)} {reqs : List (Request P)}
  {own : Nat → (request : Request P) → Own dot table request} {leave : Nat → Nat → Nat}

variable (reqs own) in
-- No request takes a thread more actions.
def mostActions (thread : Nat) : Nat := (reqs.map fun request => (own thread request).trace.length).sum

variable (reqs own) in
def workerLeft (thread : Nat) : Option (Worker S) → Nat
  | none => mostActions reqs own thread + 4
  | some .created => mostActions reqs own thread + 3
  | some (.sorting _ _ _ _ rest) => rest.length + 1
  | some (.finished _) => 0

variable (reqs) in
def mainLeft (server : Server S) : Nat :=
  if server.left then 0 else 2 * (reqs.length - server.i) + 2 - server.assigned.toNat

variable (reqs own) in
/-- A bound on the steps that are left to the loop of `main` and to the threads. -/
def serverLeft (server : Server S) : Nat :=
  if server.ended then 0
  else 1 + mainLeft reqs server + ((List.range slotCount).map fun t => workerLeft reqs own t (server.workers t)).sum

/-- The threads are those of the rounds that are over. -/
structure Server.Slotted (server : Server S) : Prop where
  below : server.i ≤ slotCount
  free : ∀ t, server.i ≤ t → server.workers t = none

omit [Score S] in
theorem Server.Slotted.inside {server : Server S} (slotted : server.Slotted) {t : Nat} {worker : Worker S}
    (here : server.workers t = some worker) : t < server.i ∧ t < slotCount := by
  have below := slotted.below
  by_contra late
  rw [slotted.free t (by omega)] at here
  cases here

variable (reqs own) in
theorem workers_less (server next : Server S) {t : Nat} (inside : t < slotCount) {worker : Worker S}
    (workers : next.workers = Function.update server.workers t (some worker))
    (less : workerLeft reqs own t (some worker) < workerLeft reqs own t (server.workers t)) :
    ((List.range slotCount).map fun t => workerLeft reqs own t (next.workers t)).sum <
      ((List.range slotCount).map fun t => workerLeft reqs own t (server.workers t)).sum := by
  apply List.sum_lt_sum
  · intro other _
    rw [workers]
    by_cases same : other = t
    · rw [same, Function.update_self]
      exact less.le
    · rw [Function.update_of_ne same]
  · refine ⟨t, List.mem_range.mpr inside, ?_⟩
    rw [workers, Function.update_self]
    exact less

theorem mainStep_less {server next : Server S} (slotted : server.Slotted) (running : server.ended = false)
    (taken : server.mainStep leave reqs.length = some next) :
    next.Slotted ∧ serverLeft reqs own next < serverLeft reqs own server := by
  have flag := server.assigned.toNat_le
  simp only [Server.mainStep] at taken
  split_ifs at taken with left finished outside assigned
  · obtain rfl := Option.some.inj taken
    refine ⟨⟨slotted.below, slotted.free⟩, ?_⟩
    have here : server.left = false := by simpa using left
    simp only [serverLeft, mainLeft, running, here, Bool.false_eq_true, if_false, if_true]
    omega
  · obtain rfl := Option.some.inj taken
    refine ⟨⟨slotted.below, slotted.free⟩, ?_⟩
    simp [serverLeft, running, Server.abort]
  · obtain rfl := Option.some.inj taken
    have inside : server.i < slotCount := by omega
    have free := slotted.free server.i (Nat.le_refl _)
    refine ⟨⟨inside, fun t late => ?_⟩, ?_⟩
    · change Function.update server.workers server.i (some .created) t = none
      change server.i + 1 ≤ t at late
      rw [Function.update_of_ne (by omega)]
      exact slotted.free t (by omega)
    · have less := workers_less reqs own server
        { (server.access server.i).setWorker server.i .created with i := server.i + 1, assigned := false }
        inside rfl (by rw [free]; exact Nat.lt_succ_self _)
      have here : server.left = false := by simpa using left
      simp only [serverLeft, mainLeft, Server.setWorker, Server.access, running, here, assigned, Bool.false_eq_true,
        if_false, Bool.toNat_true, Bool.toNat_false] at less ⊢
      omega
  · obtain rfl := Option.some.inj taken
    refine ⟨⟨slotted.below, slotted.free⟩, ?_⟩
    have here : server.left = false := by simpa using left
    have notYet : server.assigned = false := by simpa using assigned
    simp only [serverLeft, mainLeft, Server.access, running, here, notYet, Bool.false_eq_true, if_false,
      Bool.toNat_true, Bool.toNat_false]
    omega

theorem workerStep_less {server next : Server S} {t : Nat} (slotted : server.Slotted)
    (running : server.ended = false) (taken : server.workerStep dot table reqs own t = some next) :
    next.Slotted ∧ serverLeft reqs own next < serverLeft reqs own server := by
  -- a thread moves on, or ends the process
  have moves : ∀ {after : Server S} {worker : Worker S}, t < server.i ∧ t < slotCount →
      after.i = server.i → after.left = server.left → after.assigned = server.assigned → after.ended = false →
      after.workers = Function.update server.workers t (some worker) →
      workerLeft reqs own t (some worker) < workerLeft reqs own t (server.workers t) →
      after.Slotted ∧ serverLeft reqs own after < serverLeft reqs own server := by
    intro after worker inside loop left assigned goes workers less
    refine ⟨⟨loop ▸ slotted.below, fun other late => ?_⟩, ?_⟩
    · rw [workers, Function.update_of_ne (by omega)]
      exact slotted.free other (loop ▸ late)
    · have sum := workers_less reqs own _ _ inside.2 workers less
      simp only [serverLeft, mainLeft, goes, running, loop, left, assigned, Bool.false_eq_true, if_false]
      omega
  have aborts : ∀ {after : Server S}, after.i = server.i → after.workers = server.workers → after.ended = true →
      after.Slotted ∧ serverLeft reqs own after < serverLeft reqs own server := by
    intro after loop workers ended
    exact ⟨⟨loop ▸ slotted.below, fun other late => workers ▸ slotted.free other (loop ▸ late)⟩,
      by simp [serverLeft, ended, running]⟩
  simp only [Server.workerStep] at taken
  rcases worker : server.workers t with _ | _ | ⟨index, fp, n, arrays, rest⟩ | index
  · simp [worker] at taken
  · have inside := slotted.inside worker
    simp only [worker] at taken
    cases found : reqs[server.x t]? with
    | none =>
      rw [found] at taken
      obtain rfl := Option.some.inj taken
      exact aborts rfl rfl rfl
    | some request =>
      rw [found] at taken
      obtain rfl := Option.some.inj taken
      refine moves inside rfl rfl rfl running rfl ?_
      have most : (own t request).trace.length ≤ mostActions reqs own t :=
        List.le_sum_of_mem (List.mem_map.mpr ⟨request, List.mem_of_getElem? found, rfl⟩)
      rw [worker]
      simp only [workerLeft]
      omega
  · have inside := slotted.inside worker
    rcases rest with _ | ⟨action, rest⟩
    · simp only [worker, Option.some.injEq] at taken
      subst taken
      exact moves inside rfl rfl rfl running rfl (by rw [worker]; exact Nat.zero_lt_one)
    · simp only [worker] at taken
      rcases acted : action arrays with _ | after
      · rw [acted] at taken
        obtain rfl := Option.some.inj taken
        exact aborts rfl rfl rfl
      · rw [acted] at taken
        obtain rfl := Option.some.inj taken
        exact moves inside rfl rfl rfl running rfl (by rw [worker]; exact Nat.lt_succ_self _)
  · simp [worker] at taken

theorem step_less (server next : Server S) (turn : Turn) (slotted : server.Slotted)
    (taken : Server.step dot table reqs own leave server turn = some next) :
    next.Slotted ∧ serverLeft reqs own next < serverLeft reqs own server := by
  simp only [Server.step] at taken
  split_ifs at taken with ended
  have running : server.ended = false := by simpa using ended
  cases turn with
  | main => exact mainStep_less slotted running taken
  | worker thread => exact workerStep_less slotted running taken

omit [Score S] in
theorem start_slotted (frame : Nat → Nat) (disk : CStr → Option (List CStr)) :
    (Server.start (S := S) frame disk).Slotted := ⟨Nat.zero_le _, fun _ _ => rfl⟩

variable (dot table reqs own leave)

theorem slotted_kept (server : Server S) (turn : Turn) (next : Server S) (slotted : server.Slotted)
    (taken : Server.step dot table reqs own leave server turn = some next) : next.Slotted :=
  (step_less server next turn slotted taken).1

theorem exists_complete (frame : Nat → Nat) (disk : CStr → Option (List CStr)) (server : Server S) (turns : List Turn)
    (ran : run (Server.step dot table reqs own leave) (.start frame disk) turns = some server) :
    ∃ rest final, run (Server.step dot table reqs own leave) server rest = some final ∧
      Completes dot table reqs own leave (.start frame disk) final := by
  have kept := slotted_kept dot table reqs own leave
  have slotted := run_invariant _ Server.Slotted kept _ _ _ (start_slotted frame disk) ran
  obtain ⟨rest, final, goes, -, stuck⟩ := run_to_end _ Server.Slotted (fun _ => true) (serverLeft reqs own) kept
    (fun server turn next slotted taken => (step_less server next turn slotted taken).2) server slotted
  exact ⟨rest, final, goes, ⟨turns ++ rest, (run_append ..).mpr ⟨server, ran, goes⟩⟩, fun turn => stuck turn rfl⟩

/-- However the threads take turns, the batch comes to its end: there is a bound on the length of its
runs, and each of them goes on until no step is left. -/
theorem batch_terminates (frame : Nat → Nat) (disk : CStr → Option (List CStr)) (turns : List Turn)
    (server : Server S)
    (ran : run (Server.step dot table reqs own leave) (.start frame disk) turns = some server) :
    turns.length ≤ serverLeft reqs own (Server.start frame disk) ∧
      ∃ rest final, run (Server.step dot table reqs own leave) server rest = some final ∧
        Completes dot table reqs own leave (.start frame disk) final := by
  have bounded := run_measure _ Server.Slotted (fun _ => true) (serverLeft reqs own)
    (slotted_kept dot table reqs own leave)
    (fun server turn next slotted taken => (step_less server next turn slotted taken).2) _ _ _
    (start_slotted frame disk) ran
  rw [List.countP_true] at bounded
  exact ⟨by omega, exists_complete dot table reqs own leave frame disk server turns ran⟩

theorem batch_terminates_two : ∃ rest final,
    run (Server.step (S := Int) (fun movie wish : Int => movie * wish) [⟨ofChars ['a'], 1, by decide⟩]
      [⟨7, allMovie, 1⟩, ⟨8, ofChars ['a'], 2⟩] (fun _ _ => .inOrder (fun _ => [0]) ⟨fun _ => [], fun _ => 0⟩)
      fun _ value => value) (.start id fun _ => none) ([.main, .main, .worker 0] ++ rest) = some final := by
  have ran : ∃ server, run (Server.step (S := Int) (fun movie wish : Int => movie * wish)
      [⟨ofChars ['a'], 1, by decide⟩] [⟨7, allMovie, 1⟩, ⟨8, ofChars ['a'], 2⟩]
      (fun _ _ => .inOrder (fun _ => [0]) ⟨fun _ => [], fun _ => 0⟩) fun _ value => value)
      (.start id fun _ => none) [.main, .main, .worker 0] = some server := ⟨_, rfl⟩
  obtain ⟨server, ran⟩ := ran
  obtain ⟨-, rest, final, goes, -⟩ := batch_terminates _ _ _ _ _ _ _ _ _ ran
  exact ⟨rest, final, (run_append ..).mpr ⟨server, ran, goes⟩⟩

variable {dot table reqs own leave}

-- Only files of the batch are opened.
def Untouched (reqs : List (Request P)) (disk : CStr → Option (List CStr)) (server : Server S) : Prop :=
  ∀ name, (∀ request ∈ reqs, name ≠ tOut request.id) → server.files name = disk name

omit [Score S] in
theorem Untouched.write {disk : CStr → Option (List CStr)} {server : Server S} (untouched : Untouched reqs disk server)
    {request : Request P} (member : request ∈ reqs) (lines : List CStr) :
    Untouched reqs disk (server.write (tOut request.id) lines) := by
  intro name other
  exact (Function.update_of_ne (other request member) ..).trans (untouched name other)

theorem Untouched.step {disk : CStr → Option (List CStr)} {server next : Server S} {turn : Turn}
    (inv : Inv dot table reqs own server) (untouched : Untouched reqs disk server)
    (taken : Server.step dot table reqs own leave server turn = some next) : Untouched reqs disk next := by
  simp only [Server.step] at taken
  split_ifs at taken
  cases turn with
  | main =>
    simp only [Server.mainStep] at taken
    split_ifs at taken <;> obtain rfl := Option.some.inj taken <;> exact untouched
  | worker t =>
    have here := inv.tracked t
    simp only [Server.workerStep] at taken
    unfold Tracked at here
    rcases worker : server.workers t with _ | _ | ⟨index, fp, n, arrays, rest⟩ | index
    · simp [worker] at taken
    · simp only [worker] at taken
      cases found : reqs[server.x t]? with
      | none =>
        rw [found] at taken
        obtain rfl := Option.some.inj taken
        exact untouched
      | some request =>
        rw [found] at taken
        obtain rfl := Option.some.inj taken
        exact untouched.write (List.mem_of_getElem? found) []
    · rw [worker] at here
      obtain ⟨-, request, found, rfl, -, -⟩ := here
      rcases rest with _ | ⟨action, rest⟩
      · simp only [worker, Option.some.injEq] at taken
        subst taken
        exact untouched.write (List.mem_of_getElem? found) _
      · simp only [worker] at taken
        cases acted : action arrays <;> rw [acted] at taken <;> obtain rfl := Option.some.inj taken <;>
          exact untouched
    · simp [worker] at taken

theorem Inv.step (admitted : Admitted reqs) (few : reqs.length ≤ slotCount)
    (stays : ∀ slot < reqs.length, leave slot slot = slot) {server next : Server S} {turn : Turn}
    (inv : Inv dot table reqs own server)
    (taken : Server.step dot table reqs own leave server turn = some next) : Inv dot table reqs own next := by
  simp only [Server.step] at taken
  split_ifs at taken with ended
  have running : server.ended = false := by simpa using ended
  cases turn with
  | main => exact inv.mainStep few stays running taken
  | worker thread => exact inv.workerStep admitted running taken

/-- The batch in which no request fails: each has its file, and nothing else has changed. -/
theorem Servable.outcome (admitted : Admitted reqs) (servable : Servable reqs own leave)
    (harmless : ∀ index request, reqs[index]? = some request → (dealt (own index request)).isSome)
    {frame : Nat → Nat} {disk : CStr → Option (List CStr)} {final : Server S}
    (completes : Completes dot table reqs own leave (.start frame disk) final) :
    final.ended = false ∧ Untouched reqs disk final ∧
      ∀ index request, reqs[index]? = some request →
        ∃ output, dealt (own index request) = some output ∧ final.files (tOut request.id) = some output.lines := by
  obtain ⟨⟨turns, ran⟩, stuck⟩ := completes
  obtain ⟨inv, untouched⟩ := run_invariant _ (fun server => Inv dot table reqs own server ∧ Untouched reqs disk server)
    (fun server turn next holds taken =>
      ⟨holds.1.step admitted servable.few servable.stays taken, holds.2.step holds.1 taken⟩)
    _ _ _ ⟨.start frame disk, fun _ _ => rfl⟩ ran
  refine ⟨?_, untouched, fun index request found => ?_⟩
  · by_contra ended
    obtain ⟨t, request, found, fails, -, -⟩ := inv.failed (by simpa using ended)
    have deals := harmless t request found
    rw [fails] at deals
    cases deals
  · obtain ⟨output, deals⟩ := Option.isSome_iff_exists.mp (harmless index request found)
    have file := (inv.served servable stuck found).2
    exact ⟨output, deals, by rw [file, dealtLines, deals]; rfl⟩

-- What `deal_request` writes is the answer to its request.
theorem dealt_answer {request : Request P} (choices : Own dot table request)
    (terminated : ∀ j, (choices.memory j).head? = some 0)
    (above : ∀ movie ∈ table, ∀ byte ∈ movie.title, 9 < byte)
    (nonneg : ∀ movie ∈ table, 0 ≤ dot movie.profile request.profile)
    (nonempty : 1 ≤ (matching dot request table).length) :
    ∃ output, dealt choices = some output ∧ Answer (matching dot request table) output.lines := by
  obtain ⟨n, filtered, filtering⟩ : ∃ n filtered, filterMovies (copyTitle choices.memory) dot request table
      choices.arrays = (n, filtered) := ⟨_, _, rfl⟩
  have taken := choices.taken
  rw [filtering] at taken
  obtain ⟨sorted, order, -, perm, before, -, output⟩ := dealRequest_sorts choices.memory dot request table
    choices.arrays filtered n choices.trace terminated above nonneg nonempty filtering taken
  exact ⟨_, output, order, perm, before, rfl⟩

end

section

variable {D : Type} [Double D]

/-- `dot` -/
def dot (a b : List D) : D :=
  (List.range numOfGenre).foldl
    (fun output i => Double.add output (Double.mul (a.getD i Double.zero) (b.getD i Double.zero))) Double.zero

def Row.profile (row : Row) : List D := normalized (row.genres.map strtod)

def Wish.profile (wish : Wish) : List D := normalized (wish.points.map strtod)

theorem Row.fits (row : Row) : Fits row.title := by
  obtain ⟨long, -⟩ := readMovie_fits (D := Int) _ _ (readMovie_text row)
  have short := row.short
  have suffixed : secret.length = 19 := by decide
  have most : maxLen = 255 := rfl
  simp only [List.length_append, List.length_singleton, Row.movie, Row.text] at long
  unfold Fits
  omega

def Row.entry (row : Row) : MovieProfile (List D) := ⟨row.title, row.profile, row.fits⟩

theorem loadedRows_loaded (rows : List Row) (few : rows.length ≤ maxMovies) :
    (loadedRows rows : Dataset D).Loaded :=
  readMovies_loaded _ _ _ _ ⟨Nat.zero_le _, fun i below => absurd below (Nat.not_lt_zero i)⟩
    (readMovies_rows rows rows.length (Dataset.empty : Dataset D) (by simpa [Dataset.empty] using few) (Nat.le_refl _))

-- The table that the threads share has the rows of the file.
theorem loadedRows_table (rows : List Row) (few : rows.length ≤ maxMovies) :
    (loadedRows rows : Dataset D).table = rows.map Row.entry := by
  obtain ⟨count, -, cells⟩ := push_rows rows (Dataset.empty : Dataset D)
  have none_ : (Dataset.empty : Dataset D).numOfMovies = 0 := rfl
  rw [none_, Nat.zero_add] at count
  have whole := (loadedRows_loaded (D := D) rows few).table
  rw [show (loadedRows rows : Dataset D).numOfMovies = rows.length from count] at whole
  apply List.map_injective_iff.mpr (Option.some_injective _)
  rw [whole]
  apply List.ext_getElem (by simp)
  intro i inside _
  simp only [List.length_map, List.length_range] at inside
  have cell := cells i inside
  rw [none_, Nat.zero_add] at cell
  simp only [List.getElem_map, List.getElem_range]
  rw [loadedRows, cell, Option.bind_some]
  exact dif_pos rows[i].fits

def Batch.requests (batch : Batch) : List (Request (List D)) := batch.wishes.map Wish.request

theorem load_text (header : CStr) (rows : List Row) (batch : Batch) (oneLine : 10 ∉ header)
    (short : header.length < maxLen - 1) (few : rows.length ≤ maxMovies) :
    load (D := D) (movieFile header rows) batch.text = some (loadedRows rows, batch.requests) := by
  have movies := readMovies_file (D := D) header rows (readRequests (D := D) batch.text) oneLine short few
  rw [readRequests_text] at movies
  simp [load, movies, readRequests_text (D := D) batch, Batch.requests, scanf_blank batch.stop batch.blank']

variable [Score D]

/-- What the file of a request should list: the movies of the file with the keyword in their titles, each
with the product of its profile and that of the request. -/
def candidates (rows : List Row) (wish : Wish) : List (Entry D) :=
  (rows.filter fun row => wanted wish.keywords row.title).map fun row => ⟨dot (D := D) row.profile wish.profile, row.title⟩

omit [Score D] in
theorem matching_rows (rows : List Row) (wish : Wish) :
    matching dot (wish.request : Request (List D)) (rows.map Row.entry) = candidates rows wish := by
  simp only [matching, candidates, List.filter_map, List.map_map]
  rfl

/-- The files when the batch is over: an answer for each request, and what was there before. -/
structure Answered (rows : List Row) (batch : Batch) (disk : CStr → Option (List CStr)) (final : Server D) :
    Prop where
  running : final.ended = false
  answers : ∀ wish ∈ batch.wishes, ∃ lines, final.files (tOut (integerValue wish.id)) = some lines ∧
    Answer (candidates rows wish : List (Entry D)) lines
  others : ∀ name, (∀ wish ∈ batch.wishes, name ≠ tOut (integerValue wish.id)) → final.files name = disk name

/-- From the bytes of the movie file and of the standard input to the files of the requests. -/
theorem tserver_answers (header : CStr) (rows : List Row) (batch : Batch) (oneLine : 10 ∉ header)
    (short : header.length < maxLen - 1) (few : rows.length ≤ maxMovies)
    (above : ∀ row ∈ rows, ∀ byte ∈ row.title, 9 < byte)
    (nonneg : ∀ row ∈ rows, ∀ wish ∈ batch.wishes, (0 : D) ≤ dot row.profile wish.profile)
    (distinct : (batch.wishes.map fun wish => integerValue wish.id).Nodup)
    (slots : batch.wishes.length ≤ slotCount)
    (found : ∀ wish ∈ batch.wishes, ∃ row ∈ rows, wanted wish.keywords row.title = true)
    (own : Nat → (request : Request (List D)) → Own dot (loadedRows rows).table request)
    (terminated : ∀ t request j, ((own t request).memory j).head? = some 0)
    (leave : Nat → Nat → Nat) (stays : ∀ slot < batch.wishes.length, leave slot slot = slot)
    (frame : Nat → Nat) (disk : CStr → Option (List CStr)) :
    load (movieFile header rows) batch.text = some (loadedRows (D := D) rows, batch.requests) ∧
      (∃ final, Completes dot (loadedRows rows).table batch.requests own leave (.start frame disk) final) ∧
      ∀ final, Completes dot (loadedRows rows).table batch.requests own leave (.start frame disk) final →
        Answered rows batch disk final := by
  have size : (batch.requests (D := D)).length = batch.wishes.length := List.length_map ..
  have admitted : Admitted (batch.requests (D := D)) := by
    refine ⟨size ▸ batch.few, ?_⟩
    rw [Batch.requests, List.map_map]
    exact distinct
  have table := loadedRows_table (D := D) rows few
  -- each request has its answer, by whichever thread
  have deals : ∀ t, ∀ wish ∈ batch.wishes, ∃ output, dealt (own t wish.request) = some output ∧
      Answer (candidates rows wish : List (Entry D)) output.lines := by
    intro t wish member
    have entries : matching dot wish.request (loadedRows rows).table = (candidates rows wish : List (Entry D)) :=
      table ▸ matching_rows rows wish
    have movies : ∀ movie ∈ (loadedRows (D := D) rows).table, ∃ row ∈ rows, row.entry = movie := by
      rw [table]
      exact fun movie inside => List.mem_map.mp inside
    rw [← entries]
    refine dealt_answer (own t wish.request) (terminated t wish.request) ?_ ?_ ?_
    · intro movie inside
      obtain ⟨row, here, rfl⟩ := movies movie inside
      exact above row here
    · intro movie inside
      obtain ⟨row, here, rfl⟩ := movies movie inside
      exact nonneg row here wish member
    · obtain ⟨row, here, chosen⟩ := found wish member
      rw [entries, candidates, List.length_map]
      exact List.length_pos_of_mem (List.mem_filter.mpr ⟨here, chosen⟩)
  have wishes : ∀ index (request : Request (List D)), batch.requests[index]? = some request →
      ∃ wish ∈ batch.wishes, wish.request = request := fun index request here =>
    List.mem_map.mp (List.mem_of_getElem? here)
  have harmless : ∀ index request, batch.requests[index]? = some request → (dealt (own index request)).isSome := by
    intro index request here
    obtain ⟨wish, member, rfl⟩ := wishes index request here
    obtain ⟨output, deal, -⟩ := deals index wish member
    rw [deal]
    rfl
  have servable : Servable batch.requests own leave := ⟨size ▸ slots, size ▸ stays, fun _ => harmless⟩
  refine ⟨load_text header rows batch oneLine short few, ?_, fun final completes => ?_⟩
  · obtain ⟨-, final, -, completes⟩ := exists_complete dot (loadedRows rows).table batch.requests own leave frame disk
      (.start frame disk) [] rfl
    exact ⟨final, completes⟩
  · obtain ⟨running, untouched, outputs⟩ := servable.outcome admitted harmless completes
    refine ⟨running, fun wish member => ?_, fun name other => untouched name ?_⟩
    · obtain ⟨index, inside, same⟩ := List.getElem_of_mem (List.mem_map_of_mem (f := Wish.request (D := D)) member)
      have here : batch.requests[index]? = some wish.request := same ▸ List.getElem?_eq_getElem inside
      obtain ⟨output, deal, lines⟩ := outputs index _ here
      obtain ⟨output', deal', answer⟩ := deals index wish member
      obtain rfl := Option.some.inj (deal.symm.trans deal')
      exact ⟨output.lines, lines, answer⟩
    · intro request member
      obtain ⟨wish, here, rfl⟩ := List.mem_map.mp member
      exact other wish here

omit [Score D] in
theorem tOut_fits (id : Int) (inRange : intMin ≤ id ∧ id ≤ intMax) : (tOut id).length < 20 := by
  simp only [intMin, intMax] at inRange
  have digits := int_text_length id 10 (by decide) (by omega)
  rw [tOut, outputName, ofChars, List.length_map, List.length_append, String.length_toList]
  exact Nat.lt_of_le_of_lt (Nat.add_le_add_right digits _) (by decide)

omit [Score D] in
/-- Whatever the file and the standard input are: once `main` is past `initialize`, the table and the
requests are whole, and every name fits `file_name`. -/
theorem load_safe (file input : List UInt8) (dataset : Dataset D) (reqs : List (Request (List D)))
    (rest : List UInt8)
    (initialized : initializeDataset file (readRequests input) = some (dataset, reqs, rest)) :
    dataset.Loaded ∧ reqs.length ≤ maxReq ∧
      ∀ request ∈ reqs, request.Loaded ∧ (tOut request.id).length < 20 := by
  have table := initialize_loaded file _ _ _ initialized
  obtain ⟨few, all⟩ : reqs.length ≤ maxReq ∧ ∀ request ∈ reqs, request.Loaded := by
    simp only [initializeDataset, Option.bind_eq_bind, Option.bind_eq_some_iff] at initialized
    obtain ⟨header, _, movies, _, read, requests, result⟩ := initialized
    obtain rfl : read = (reqs, rest) := (Prod.mk.inj (Option.some.inj result)).2
    simp only [readRequests] at requests
    split_ifs at requests with few
    obtain ⟨length, all⟩ := readMany_all _ Request.Loaded readRequest_loaded _ _ _ _ requests
    exact ⟨length ▸ few, all⟩
  exact ⟨table, few, fun request member => ⟨all request member, tOut_fits _ (all request member).id⟩⟩

end

-- A request for the movies with `U` in their titles.
def sampleWish (id : CStr) (decimal : IsDecimal id)
    (inRange : -2147483648 ≤ integerValue id ∧ integerValue id ≤ 2147483647) : Wish where
  before := .newline
  id := id
  afterId := .newline
  keywords := ofChars ['U']
  afterKeywords := .newline
  points := ofChars ['2'] :: List.replicate 18 (ofChars ['0'])
  decimal := decimal
  inRange := inRange
  word := ⟨by decide, by simp [ofChars, ascii, isSpace]⟩
  short := by decide
  string := by decide
  count := by decide
  plain := by decide
  few := by decide

def sampleBatch : Batch where
  start := [32]
  count := ofChars ['0', '2']
  wishes := [sampleWish (ofChars ['-', '3']) (by decide) (by decide), sampleWish (ofChars ['8']) (by decide) (by decide)]
  stop := [10]
  decimal := by decide
  counted := by decide
  few := by decide
  blank := blank_space
  blank' := blank_newline

def sampleChoices (_ : Nat) (request : Request (List Int)) :
    Own (S := Int) dot (loadedRows [sampleRow]).table request :=
  .inOrder (fun _ => [0]) ⟨fun _ => [], fun _ => 0⟩

theorem tserver_answers_sample :
    ∃ final, Completes (S := Int) dot (loadedRows [sampleRow]).table sampleBatch.requests sampleChoices
        (fun _ value => value) (.start id fun _ => none) final ∧ Answered [sampleRow] sampleBatch (fun _ => none) final := by
  obtain ⟨-, ⟨final, completes⟩, answered⟩ := tserver_answers (D := Int) (ofChars ['i', 'd']) [sampleRow] sampleBatch
    (by decide) (by decide) (by decide) (by simp [sampleRow, ofChars, ascii])
    (by decide +kernel) (by decide) (by decide) (by decide +kernel)
    sampleChoices (fun _ _ _ => rfl) (fun _ value => value) (fun _ _ => rfl) id (fun _ => none)
  exact ⟨final, completes, answered final completes⟩

theorem load_safe_sample : ∃ (dataset : Dataset Int) (reqs : List (Request (List Int))) (rest : List UInt8),
    initializeDataset (D := Int) (movieFile (ofChars ['i', 'd']) [sampleRow, otherRow])
      (readRequests sampleBatch.text) = some (dataset, reqs, rest) ∧
      dataset.Loaded ∧ ∀ request ∈ reqs, (tOut request.id).length < 20 := by
  have initialized : initializeDataset (D := Int) (movieFile (ofChars ['i', 'd']) [sampleRow, otherRow])
      (readRequests sampleBatch.text) =
        some (loadedRows [sampleRow, otherRow], sampleBatch.wishes.map (Wish.request (D := Int)),
          sampleBatch.stop) := by
    rw [readMovies_file _ _ _ (by decide) (by decide) (by decide), readRequests_text]
    rfl
  obtain ⟨table, -, all⟩ := load_safe _ _ _ _ _ initialized
  exact ⟨_, _, _, initialized, table, fun request member => (all request member).2⟩

end SPHomework.MovieSort
