import SPHomework.Lib.Run
import SPHomework.Lib.Scanf
import SPHomework.MovieSort.ThreadServer

set_option autoImplicit false

/-!
# The batch of the thread server

`main` creates a thread for each request and hands it a pointer to a slot of its
own frame. The threads share the movie table, the requests and the slots; what
they allocate is theirs.
-/

namespace SPHomework.MovieSort

open Lib

-- `MAX_REQ`, and the length of `thread_id` and `x` in `main`.
def maxReq : Nat := 0xff

def slotCount : Nat := 32

variable {P S : Type} [Score S]

/-- What a request thread does not share: what its new memory holds, and the order in which the
threads that sort for it run. -/
structure Own (dot : P → P → S) (table : List (MovieProfile P)) (request : Request P) where
  memory : Nat → List UInt8
  arrays : Arrays S
  trace : List (Arrays S → Option (Arrays S))
  taken : (sortMatches table.length (filterMovies (copyTitle memory) dot request table arrays).1).Trace trace

/-- A request thread: created, in `deal_request` with its open file, or at its end. -/
inductive Worker (S : Type) where
  | created
  | sorting (index : Nat) (fp : CStr) (filteredMovieNum : Nat) (arrays : Arrays S)
    (rest : List (Arrays S → Option (Arrays S)))
  | finished (index : Nat)

/-- The loop of `main` with its slots, the threads and the output files. `accesses` and `taken` are
history: the slots accessed, and which thread took which request. The process is `ended` by a failed
assertion in a thread, or by an access that has no meaning. -/
structure Server (S : Type) where
  i : Nat
  assigned : Bool
  left : Bool
  x : Nat → Nat
  workers : Nat → Option (Worker S)
  files : CStr → Option (List CStr)
  accesses : List Nat
  taken : List (Nat × Nat)
  ended : Bool

inductive Turn where
  | main
  | worker (thread : Nat)
  deriving DecidableEq

def tOut (id : Int) : CStr := outputName id ['t', '.', 'o', 'u', 't']

namespace Server

def start (frame : Nat → Nat) (disk : CStr → Option (List CStr)) : Server S where
  i := 0
  assigned := false
  left := false
  x := frame
  workers _ := none
  files := disk
  accesses := []
  taken := []
  ended := false

def access (server : Server S) (slot : Nat) : Server S :=
  { server with accesses := server.accesses ++ [slot] }

def setWorker (server : Server S) (thread : Nat) (worker : Worker S) : Server S :=
  { server with workers := Function.update server.workers thread (some worker) }

def write (server : Server S) (fp : CStr) (lines : List CStr) : Server S :=
  { server with files := Function.update server.files fp (some lines) }

def abort (server : Server S) : Server S := { server with ended := true }

/-- Before the loop `scanf("%u", num_of_reqs);` passes a number for a pointer. If what is left of the
standard input starts with a number, it is stored to an address where nothing is. -/
def boot (rest : List UInt8) (frame : Nat → Nat) (disk : CStr → Option (List CStr)) : Server S :=
  if (scanf [.item .numeral] rest).1 = [] then start frame disk else (start frame disk).abort

-- `x[i] = i;` and then `pthread_create(&thread_id[i], NULL, deal_request, &x[i]);`. After the loop
-- `pthread_exit(NULL);` ends the frame of `main`: `leave` is what its slots hold from then on.
def mainStep (leave : Nat → Nat → Nat) (numOfReqs : Nat) (server : Server S) : Option (Server S) :=
  let i := server.i
  if server.left then none
  else if numOfReqs ≤ i then
    some { server with x := fun slot => leave slot (server.x slot), left := true }
  else if slotCount ≤ i then some (server.access i).abort
  else if server.assigned then
    some { (server.access i).setWorker i .created with i := i + 1, assigned := false }
  else
    some { server.access i with x := Function.update server.x i i, assigned := true }

/-- A step of `deal_request`: to the end of the filter loop, an action of the sort, or the printing
loop. -/
def workerStep (dot : P → P → S) (table : List (MovieProfile P)) (reqs : List (Request P))
    (own : Nat → (request : Request P) → Own dot table request) (thread : Nat) (server : Server S) : Option (Server S) :=
  match server.workers thread with
  | none => none
  | some .created =>
    let index := server.x thread
    match reqs[index]? with
    | none => some (server.access thread).abort
    | some currentReq =>
      let fp := tOut currentReq.id
      let filtered :=
        filterMovies (copyTitle (own thread currentReq).memory) dot currentReq table
          (own thread currentReq).arrays
      some { ((server.access thread).write fp []).setWorker thread
          (.sorting index fp filtered.1 filtered.2 (own thread currentReq).trace) with
        taken := server.taken ++ [(thread, index)] }
  | some (.sorting index fp filteredMovieNum arrays (action :: rest)) =>
    match action arrays with
    | none => some server.abort
    | some arrays => some (server.setWorker thread (.sorting index fp filteredMovieNum arrays rest))
  | some (.sorting index fp filteredMovieNum arrays []) =>
    some ((server.write fp (printed arrays filteredMovieNum)).setWorker thread (.finished index))
  | some (.finished _) => none

def step (dot : P → P → S) (table : List (MovieProfile P)) (reqs : List (Request P))
    (own : Nat → (request : Request P) → Own dot table request) (leave : Nat → Nat → Nat)
    (server : Server S) (turn : Turn) : Option (Server S) :=
  if server.ended then none
  else
    match turn with
    | .main => server.mainStep leave reqs.length
    | .worker thread => server.workerStep dot table reqs own thread

end Server

-- `initialize` admits the batch; its ids are distinct.
structure Admitted (reqs : List (Request P)) : Prop where
  count : reqs.length ≤ maxReq
  distinct : (reqs.map Request.id).Nodup

section

variable (dot : P → P → S) (table : List (MovieProfile P)) (reqs : List (Request P))
  (own : Nat → (request : Request P) → Own dot table request) (leave : Nat → Nat → Nat)

-- A run that cannot go on: all threads are at their end, or the process is.
structure Completes (server final : Server S) : Prop where
  ran : ∃ turns, run (Server.step dot table reqs own leave) server turns = some final
  stuck : ∀ turn, Server.step dot table reqs own leave final turn = none

/-- What the batch should do, whatever the frame of `main` and the directory hold at the start; `rest`
is what follows the batch in the standard input. -/
structure ServedAlone (rest : List UInt8) : Prop where
  inside : ∀ frame disk turns server,
    run (Server.step dot table reqs own leave) (.boot rest frame disk) turns = some server →
      ∀ slot ∈ server.accesses, slot < slotCount
  matched : ∀ frame disk turns server,
    run (Server.step dot table reqs own leave) (.boot rest frame disk) turns = some server →
      ∀ pair ∈ server.taken, pair.2 = pair.1
  once : ∀ frame disk final, Completes dot table reqs own leave (.boot rest frame disk) final →
    ∀ index < reqs.length, (final.taken.map Prod.snd).count index = 1
  same : ∀ frame disk final, Completes dot table reqs own leave (.boot rest frame disk) final →
    ∀ index request, reqs[index]? = some request →
      ∀ frame' disk' alone, Completes dot table [request] (fun _ => own index) leave
        (.boot rest frame' disk') alone → final.files (tOut request.id) = alone.files (tOut request.id)

-- The output of `deal_request` for a request, by the choices of its thread; nothing when an
-- assertion of the library fails.
def dealt {dot : P → P → S} {table : List (MovieProfile P)} {request : Request P}
    (choices : Own dot table request) : Option Output :=
  dealRequest choices.memory dot request table choices.arrays choices.trace

-- The lines of its file when the process is over.
def dealtLines {dot : P → P → S} {table : List (MovieProfile P)} {request : Request P}
    (choices : Own dot table request) : List CStr :=
  (dealt choices).elim [] Output.lines

theorem ofChars_injective (first second : List Char) (small : ∀ char ∈ first, char.toNat < 256)
    (small' : ∀ char ∈ second, char.toNat < 256) (same : ofChars first = ofChars second) :
    first = second := by
  induction first generalizing second with
  | nil =>
    cases second with
    | nil => rfl
    | cons char rest => simp [ofChars] at same
  | cons char rest ih =>
    cases second with
    | nil => simp [ofChars] at same
    | cons char' rest' =>
      simp only [ofChars, List.map_cons, List.cons.injEq] at same
      have equal : char = char' := by
        have code := congrArg UInt8.toNat same.1
        simp only [ascii, UInt8.toNat_ofNat'] at code
        rw [Nat.mod_eq_of_lt (small char List.mem_cons_self),
          Nat.mod_eq_of_lt (small' char' List.mem_cons_self)] at code
        exact Char.toNat_inj.mp code
      rw [equal, ih rest' (fun other member => small other (List.mem_cons_of_mem _ member))
        (fun other member => small' other (List.mem_cons_of_mem _ member)) same.2]

theorem toString_toList (id : Int) : (toString id).toList =
    if 0 ≤ id then Nat.toDigits 10 id.toNat else '-' :: Nat.toDigits 10 (-id).toNat := by
  rw [Int.toString_eq_repr, Int.repr_eq_if]
  split_ifs <;> simp

theorem toString_small (id : Int) : ∀ char ∈ (toString id).toList, char.toNat < 256 := by
  have digit : ∀ number, ∀ char ∈ Nat.toDigits 10 number, char.toNat < 256 := by
    intro number char member
    have small := Nat.isDigit_of_mem_toDigits (by decide) (by decide) member
    exact (Char.isDigit_iff_toNat.mp small).2.trans_lt (by decide)
  intro char member
  rw [toString_toList] at member
  split_ifs at member
  · exact digit _ char member
  · rcases List.mem_cons.mp member with rfl | inside
    · decide
    · exact digit _ char inside

theorem toDigits_injective (first second : Nat) (same : Nat.toDigits 10 first = Nat.toDigits 10 second) :
    first = second := by
  rw [← @Nat.ofDigitChars_ten_toDigits first, same, Nat.ofDigitChars_ten_toDigits]

theorem toString_injective (first second : Int) (same : (toString first).toList = (toString second).toList) :
    first = second := by
  have noMinus : ∀ number rest, Nat.toDigits 10 number ≠ '-' :: rest := by
    intro number rest equal
    have digit := Nat.isDigit_of_mem_toDigits (c := '-') (b := 10) (n := number) (by decide) (by decide)
      (equal ▸ List.mem_cons_self)
    exact absurd digit (by decide)
  rw [toString_toList, toString_toList] at same
  split_ifs at same with positive positive' positive'
  · have equal := toDigits_injective _ _ same
    omega
  · exact absurd same (noMinus _ _)
  · exact absurd same.symm (noMinus _ _)
  · have equal := toDigits_injective _ _ (List.cons.inj same).2
    omega

theorem tOut_injective (first second : Int) (same : tOut first = tOut second) : first = second := by
  simp only [tOut, outputName, ofChars, List.map_append] at same
  have digits := List.append_cancel_right same
  exact toString_injective first second
    (ofChars_injective _ _ (toString_small first) (toString_small second) digits)

def Started : Option (Worker S) → Bool
  | some (.sorting ..) => true
  | some (.finished _) => true
  | _ => false

/-- Where the thread of index `t` is, once it has started: its request is that of the index, and
what its file will hold is what `deal_request` makes of that request. -/
def Tracked (server : Server S) (t : Nat) : Prop :=
  match server.workers t with
  | none => True
  | some .created => True
  | some (.sorting index fp n arrays rest) =>
    index = t ∧ ∃ request, reqs[t]? = some request ∧ fp = tOut request.id ∧
      server.files fp = some [] ∧
      (Par.execute rest arrays).map (printed · n) = (dealt (own t request)).map Output.lines
  | some (.finished index) =>
    index = t ∧ ∃ request output, reqs[t]? = some request ∧ dealt (own t request) = some output ∧
      server.files (tOut request.id) = some output.lines

structure Inv (server : Server S) : Prop where
  bound : server.i ≤ reqs.length
  left : server.left = true → server.i = reqs.length
  assigned : server.assigned = true → server.i < reqs.length ∧ server.x server.i = server.i
  slots : ∀ slot < server.i, server.x slot = slot
  workers : ∀ t, (server.workers t).isSome ↔ t < server.i
  tracked : ∀ t, Tracked dot table reqs own server t
  accesses : ∀ slot ∈ server.accesses, slot < reqs.length
  taken : ∀ pair ∈ server.taken, pair.2 = pair.1
  counted : ∀ t, (server.taken.map Prod.snd).count t = if Started (server.workers t) then 1 else 0
  failed : server.ended = true → ∃ t request, reqs[t]? = some request ∧
    dealt (own t request) = none ∧ Started (server.workers t) = true ∧
    server.files (tOut request.id) = some []

variable {dot table reqs own leave}

theorem Inv.start (frame : Nat → Nat) (disk : CStr → Option (List CStr)) :
    Inv dot table reqs own (.start frame disk) := by
  constructor <;> simp [Server.start, Tracked, Started]

theorem Tracked.frame {server next : Server S} {t : Nat} (tracked : Tracked dot table reqs own server t)
    (worker : next.workers t = server.workers t)
    (files : ∀ request, reqs[t]? = some request →
      next.files (tOut request.id) = server.files (tOut request.id)) :
    Tracked dot table reqs own next t := by
  unfold Tracked at tracked ⊢
  rw [worker]
  split at tracked
  · trivial
  · trivial
  · obtain ⟨same, request, found, rfl, empty, result⟩ := tracked
    exact ⟨same, request, found, rfl, (files request found).trans empty, result⟩
  · obtain ⟨same, request, output, found, result, lines⟩ := tracked
    exact ⟨same, request, output, found, result, (files request found).trans lines⟩

theorem files_apart (admitted : Admitted reqs) {t other : Nat} {request request' : Request P}
    (found : reqs[t]? = some request) (found' : reqs[other]? = some request') (apart : other ≠ t)
    (files : CStr → Option (List CStr)) (lines : List CStr) :
    Function.update files (tOut request.id) (some lines) (tOut request'.id) =
      files (tOut request'.id) := by
  apply Function.update_of_ne
  intro same
  have ids := tOut_injective _ _ same
  have inside : other < (reqs.map Request.id).length := by
    rw [List.length_map]
    exact (List.getElem?_eq_some_iff.mp found').1
  exact apart ((List.getElem?_inj inside admitted.distinct).mp (by simp [found, found', ids]))

theorem accesses_snoc {accesses : List Nat} {bound i : Nat} (before : ∀ slot ∈ accesses, slot < bound)
    (below : i < bound) : ∀ slot ∈ accesses ++ [i], slot < bound := by
  intro slot member
  rcases List.mem_append.mp member with early | last
  · exact before slot early
  · rw [List.mem_singleton.mp last]
    exact below

theorem Inv.free {server : Server S} (inv : Inv dot table reqs own server) {t : Nat}
    (late : server.i ≤ t) : server.workers t = none := by
  have absent := (inv.workers t).not.mpr (by omega)
  simpa using absent

theorem Inv.mainStep (few : reqs.length ≤ slotCount)
    (stays : ∀ slot < reqs.length, leave slot slot = slot) {server next : Server S}
    (inv : Inv dot table reqs own server) (running : server.ended = false)
    (taken : server.mainStep leave reqs.length = some next) : Inv dot table reqs own next := by
  have bound := inv.bound
  simp only [Server.mainStep] at taken
  split_ifs at taken with left finished outside assigned
  · -- `main` leaves, with the slots of all requests written
    obtain rfl := Option.some.inj taken
    have all : server.i = reqs.length := by omega
    refine ⟨bound, fun _ => all, ?_, ?_, inv.workers, ?_, inv.accesses, inv.taken, inv.counted, inv.failed⟩
    · intro assigned
      exact absurd (inv.assigned assigned).1 (by omega)
    · intro slot below
      change leave slot (server.x slot) = slot
      have early : slot < server.i := below
      rw [inv.slots slot early, stays slot (by omega)]
    · exact fun t => (inv.tracked t).frame rfl fun _ _ => rfl
  · omega
  · -- the slot of the new thread holds its own index
    obtain rfl := Option.some.inj taken
    have free := inv.free (Nat.le_refl server.i)
    refine ⟨?_, ?_, ?_, ?_, ?_, ?_, accesses_snoc inv.accesses (by omega), inv.taken, ?_, ?_⟩
    · change server.i + 1 ≤ reqs.length
      omega
    · exact fun gone => absurd gone left
    · simp
    · intro slot below
      change slot < server.i + 1 at below
      rcases Nat.lt_succ_iff_lt_or_eq.mp below with early | rfl
      · exact inv.slots slot early
      · exact (inv.assigned assigned).2
    · intro t
      have before := inv.workers t
      by_cases new : t = server.i
      · simp [Server.setWorker, Server.access, new]
      · simp only [Server.setWorker, Server.access, Function.update_of_ne new, before]
        omega
    · intro t
      by_cases new : t = server.i
      · subst new
        simp [Tracked, Server.setWorker, Server.access]
      · exact (inv.tracked t).frame (Function.update_of_ne new _ _) fun _ _ => rfl
    · intro t
      have before := inv.counted t
      by_cases new : t = server.i
      · subst new
        simpa [Server.setWorker, Server.access, Started, free] using before
      · simpa [Server.setWorker, Server.access, Function.update_of_ne new] using before
    · intro ended
      exact absurd (running.symm.trans ended) (by decide)
  · obtain rfl := Option.some.inj taken
    refine ⟨bound, ?_, ?_, ?_, inv.workers, ?_, accesses_snoc inv.accesses (by omega), inv.taken,
      inv.counted, ?_⟩
    · exact fun gone => absurd gone left
    · intro _
      simp only [Server.access, Function.update_self, and_true]
      omega
    · intro slot below
      change slot < server.i at below
      change Function.update server.x server.i server.i slot = slot
      rw [Function.update_of_ne (by omega)]
      exact inv.slots slot below
    · exact fun t => (inv.tracked t).frame rfl fun _ _ => rfl
    · intro ended
      exact absurd (running.symm.trans ended) (by decide)

-- A thread moves on: only its own file changes.
theorem Inv.advance {server next : Server S} {t : Nat} (inv : Inv dot table reqs own server)
    (below : t < server.i) (worker : Worker S) (loop : next.i = server.i ∧ next.assigned = server.assigned ∧
      next.left = server.left ∧ next.x = server.x)
    (running : next.ended = false)
    (workers : next.workers = Function.update server.workers t (some worker))
    (files : ∀ other request', other ≠ t → reqs[other]? = some request' →
      next.files (tOut request'.id) = server.files (tOut request'.id))
    (tracked : Tracked dot table reqs own next t) (accesses : ∀ slot ∈ next.accesses, slot < reqs.length)
    (taken : ∀ pair ∈ next.taken, pair.2 = pair.1)
    (counted : ∀ other, (next.taken.map Prod.snd).count other =
      if Started (next.workers other) then 1 else 0) : Inv dot table reqs own next := by
  obtain ⟨same, assigned, left, slots⟩ := loop
  refine ⟨same ▸ inv.bound, ?_, ?_, ?_, ?_, ?_, accesses, taken, counted, ?_⟩
  · rw [left, same]
    exact inv.left
  · rw [assigned, same, slots]
    exact inv.assigned
  · rw [same, slots]
    exact inv.slots
  · intro other
    rw [workers, same]
    by_cases own_ : other = t
    · simp [own_, below]
    · rw [Function.update_of_ne own_]
      exact inv.workers other
  · intro other
    by_cases own_ : other = t
    · exact own_ ▸ tracked
    · apply (inv.tracked other).frame
      · rw [workers, Function.update_of_ne own_]
      · exact fun request' found' => files other request' own_ found'
  · intro ended
    exact absurd (running.symm.trans ended) (by decide)

theorem Inv.begins (admitted : Admitted reqs) {server : Server S} {t : Nat} {request : Request P}
    (inv : Inv dot table reqs own server) (running : server.ended = false) (below : t < server.i)
    (worker : server.workers t = some .created) (found : reqs[t]? = some request)
    (filtered : Nat × Arrays S) (filtering : filtered = filterMovies (copyTitle (own t request).memory) dot
      request table (own t request).arrays) :
    Inv dot table reqs own { ((server.access t).write (tOut request.id) []).setWorker t
        (.sorting t (tOut request.id) filtered.1 filtered.2 (own t request).trace) with
      taken := server.taken ++ [(t, t)] } := by
  have bound := inv.bound
  refine inv.advance below _ ⟨rfl, rfl, rfl, rfl⟩ running rfl ?_ ?_
    (accesses_snoc inv.accesses (by omega)) ?_ ?_
  · intro other request' apart found'
    exact files_apart admitted found found' apart server.files []
  · simp only [Tracked, Server.setWorker, Server.write, Server.access, Function.update_self]
    refine ⟨trivial, request, found, rfl, trivial, ?_⟩
    simp only [dealt, dealRequest, filtering]
    cases Par.execute (own t request).trace (filterMovies (copyTitle (own t request).memory) dot request
      table (own t request).arrays).2 <;> rfl
  · intro pair member
    rcases List.mem_append.mp member with before | last
    · exact inv.taken pair before
    · rw [List.mem_singleton.mp last]
  · intro other
    have before := inv.counted other
    by_cases own_ : other = t
    · subst own_
      rw [worker] at before
      simpa [Server.setWorker, Started] using before
    · have apart : ¬ t = other := fun same => own_ same.symm
      simpa [Server.setWorker, Server.write, Server.access, Function.update_of_ne own_, apart]
        using before

theorem Inv.workerStep (admitted : Admitted reqs) {server next : Server S} {t : Nat}
    (inv : Inv dot table reqs own server) (running : server.ended = false)
    (taken : server.workerStep dot table reqs own t = some next) : Inv dot table reqs own next := by
  have here := inv.tracked t
  have created := inv.workers t
  have counted := inv.counted
  have bound := inv.bound
  simp only [Server.workerStep] at taken
  unfold Tracked at here
  rcases worker : server.workers t with _ | _ | ⟨index, fp, n, arrays, rest⟩ | index
  · simp [worker] at taken
  · rw [worker] at created
    simp only [worker] at taken
    have below : t < server.i := created.mp rfl
    obtain ⟨request, found⟩ : ∃ request, reqs[t]? = some request :=
      ⟨_, List.getElem?_eq_getElem (by omega)⟩
    rw [inv.slots t below, found] at taken
    obtain rfl := Option.some.inj taken
    exact inv.begins admitted running below worker found _ rfl
  · rw [worker] at here created
    have below : t < server.i := created.mp rfl
    obtain ⟨rfl, request, found, rfl, empty, result⟩ := here
    have started : ∀ (later : Worker S), Started (some later) = true → ∀ other,
        (server.taken.map Prod.snd).count other =
          if Started (Function.update server.workers index (some later) other) then 1 else 0 := by
      intro later begun other
      rw [counted other]
      by_cases own_ : other = index
      · rw [own_, worker, Function.update_self, begun]
        rfl
      · rw [Function.update_of_ne own_]
    rcases rest with _ | ⟨action, rest⟩
    · simp only [worker, Option.some.injEq] at taken
      subst taken
      obtain ⟨output, result, lines⟩ := Option.map_eq_some_iff.mp result.symm
      refine inv.advance below _ ⟨rfl, rfl, rfl, rfl⟩ running rfl ?_ ?_ inv.accesses inv.taken
        (started _ rfl)
      · intro other request' apart found'
        exact files_apart admitted found found' apart server.files _
      · simp only [Tracked, Server.setWorker, Server.write, Function.update_self]
        exact ⟨trivial, request, output, found, result, by simp [lines]⟩
    · simp only [worker] at taken
      rcases acted : action arrays with _ | after
      · -- an assertion of the library fails
        rw [acted] at taken
        obtain rfl := Option.some.inj taken
        have none_ : dealt (own index request) = none := by
          simpa [Par.execute, acted] using result.symm
        refine ⟨bound, inv.left, inv.assigned, inv.slots, inv.workers, ?_, inv.accesses, inv.taken, counted, ?_⟩
        · exact fun other => (inv.tracked other).frame rfl fun _ _ => rfl
        · exact fun _ => ⟨index, request, found, none_, by simp [Server.abort, worker, Started], empty⟩
      · rw [acted] at taken
        obtain rfl := Option.some.inj taken
        refine inv.advance below _ ⟨rfl, rfl, rfl, rfl⟩ running rfl (fun _ _ _ _ => rfl) ?_ inv.accesses
          inv.taken (started _ rfl)
        simp only [Tracked, Server.setWorker, Function.update_self]
        exact ⟨trivial, request, found, rfl, empty, by simpa [Par.execute, acted] using result⟩
  · simp [worker] at taken

theorem Inv.reachable (admitted : Admitted reqs) (few : reqs.length ≤ slotCount)
    (stays : ∀ slot < reqs.length, leave slot slot = slot) {frame : Nat → Nat}
    {disk : CStr → Option (List CStr)} {turns : List Turn} {server : Server S}
    (ran : run (Server.step dot table reqs own leave) (.start frame disk) turns = some server) :
    Inv dot table reqs own server := by
  refine run_invariant _ (Inv dot table reqs own) ?_ _ _ _ (.start frame disk) ran
  intro server turn next inv taken
  simp only [Server.step] at taken
  split_ifs at taken with ended
  have running : server.ended = false := by simpa using ended
  cases turn with
  | main => exact inv.mainStep few stays running taken
  | worker thread => exact inv.workerStep admitted running taken

variable (reqs own leave) in
/-- The slots are enough, `pthread_exit` leaves them as they are, and no request ends the process while
there is another. -/
structure Servable : Prop where
  few : reqs.length ≤ slotCount
  stays : ∀ slot < reqs.length, leave slot slot = slot
  harmless : 2 ≤ reqs.length → ∀ index request, reqs[index]? = some request →
    (dealt (own index request)).isSome

theorem Servable.single (servable : Servable reqs own leave) {index : Nat} {request : Request P}
    (found : reqs[index]? = some request) :
    Servable [request] (fun _ => own index) leave := by
  have below := (List.getElem?_eq_some_iff.mp found).1
  refine ⟨by simp [slotCount], ?_, by simp⟩
  intro slot first
  simp only [List.length_singleton, Nat.lt_one_iff] at first
  exact servable.stays slot (by omega)

theorem Inv.finished {final : Server S} (inv : Inv dot table reqs own final) (running : final.ended = false)
    (stuck : ∀ turn, Server.step dot table reqs own leave final turn = none) {t : Nat}
    (below : t < reqs.length) : ∃ index, final.workers t = some (.finished index) := by
  have main := stuck .main
  have left : final.left = true := by
    by_contra here
    simp only [Server.step, running, Server.mainStep, here, Bool.false_eq_true, if_false] at main
    split_ifs at main
  have created := (inv.workers t).mpr (by rw [inv.left left]; exact below)
  have worker := stuck (.worker t)
  simp only [Server.step, running, Server.workerStep] at worker
  rcases here : final.workers t with _ | _ | ⟨index, fp, n, arrays, rest⟩ | index
  · simp [here] at created
  · rw [here] at worker
    cases found : reqs[final.x t]? <;> simp [found] at worker
  · rcases rest with _ | ⟨action, rest⟩
    · simp [here] at worker
    · rw [here] at worker
      cases acted : action arrays <;> simp [acted] at worker
  · exact ⟨index, rfl⟩

-- Where the run stops, each request has its thread and its file.
theorem Inv.served (servable : Servable reqs own leave) {final : Server S}
    (inv : Inv dot table reqs own final)
    (stuck : ∀ turn, Server.step dot table reqs own leave final turn = none) {t : Nat}
    {request : Request P} (found : reqs[t]? = some request) :
    Started (final.workers t) = true ∧
      final.files (tOut request.id) = some (dealtLines (own t request)) := by
  have below := (List.getElem?_eq_some_iff.mp found).1
  rcases running : final.ended with _ | _
  · obtain ⟨index, worker⟩ := inv.finished running stuck below
    have here := inv.tracked t
    rw [Tracked, worker] at here
    obtain ⟨-, request', output, found', result, lines⟩ := here
    obtain rfl := Option.some.inj (found.symm.trans found')
    exact ⟨by simp [worker, Started], by simp [dealtLines, result, lines]⟩
  · obtain ⟨t', request', found', none_, started, empty⟩ := inv.failed running
    have below' := (List.getElem?_eq_some_iff.mp found').1
    have single : reqs.length < 2 := by
      by_contra several
      have harmless := servable.harmless (by omega) t' request' found'
      simp [none_] at harmless
    obtain rfl : t' = t := by omega
    obtain rfl := Option.some.inj (found.symm.trans found')
    exact ⟨started, by simp [dealtLines, none_, empty]⟩

omit [Score S] in
theorem boot_start {rest : List UInt8} (clean : (scanf [.item .numeral] rest).1 = []) (frame : Nat → Nat)
    (disk : CStr → Option (List CStr)) : (Server.boot rest frame disk : Server S) = .start frame disk :=
  if_pos clean

theorem Servable.servedAlone (admitted : Admitted reqs) (servable : Servable reqs own leave) {rest : List UInt8}
    (clean : (scanf [.item .numeral] rest).1 = []) : ServedAlone dot table reqs own leave rest := by
  have reachable : ∀ {frame disk turns server}, run (Server.step dot table reqs own leave)
      (.start frame disk) turns = some server → Inv dot table reqs own server :=
    Inv.reachable admitted servable.few servable.stays
  constructor <;> simp only [boot_start clean]
  · intro frame disk turns server ran slot member
    exact ((reachable ran).accesses slot member).trans_le servable.few
  · intro frame disk turns server ran
    exact (reachable ran).taken
  · rintro frame disk final ⟨⟨turns, ran⟩, stuck⟩ index below
    have inv := reachable ran
    rw [inv.counted, if_pos (inv.served servable stuck (List.getElem?_eq_getElem below)).1]
  · rintro frame disk final ⟨⟨turns, ran⟩, stuck⟩ index request found frame' disk' alone ⟨⟨turns', ran'⟩, stuck'⟩
    have single := servable.single found
    have inv := Inv.reachable ⟨by simp [maxReq], by simp⟩ single.few single.stays ran'
    rw [((reachable ran).served servable stuck found).2, (inv.served single stuck' (t := 0) rfl).2]

/-- `main` has run through `k` rounds of its loop, and no thread has started. -/
def Server.created (frame : Nat → Nat) (disk : CStr → Option (List CStr)) (k : Nat) : Server S where
  i := k
  assigned := false
  left := false
  x slot := if slot < k then slot else frame slot
  workers t := if t < k then some .created else none
  files := disk
  accesses := (List.range k).flatMap fun slot => [slot, slot]
  taken := []
  ended := false

variable (dot table reqs own leave) in
theorem run_created (frame : Nat → Nat) (disk : CStr → Option (List CStr)) (k : Nat)
    (below : k ≤ reqs.length) (few : k ≤ slotCount) :
    run (Server.step dot table reqs own leave) (.start frame disk) (List.replicate (2 * k) .main) =
      some (.created frame disk k) := by
  induction k with
  | zero => simp [Server.start, Server.created]
  | succ k ih =>
    rw [show 2 * (k + 1) = 2 * k + 2 by omega, List.replicate_add, run_append]
    refine ⟨_, ih (by omega) (by omega), ?_⟩
    have late : ¬ reqs.length ≤ k := by omega
    have inside : ¬ slotCount ≤ k := by omega
    have first : Server.step dot table reqs own leave (.created frame disk k) .main = some
        { (Server.created frame disk k).access k with
          x := Function.update (Server.created (S := S) frame disk k).x k k, assigned := true } := by
      simp [Server.step, Server.mainStep, Server.created, late, inside]
    refine (run_cons ..).mpr ⟨_, first, (run_cons ..).mpr ⟨_, ?_, rfl⟩⟩
    simp only [Server.step, Server.mainStep, Server.created, Server.access, Server.setWorker, late, inside,
      Bool.false_eq_true, if_false, if_true, Option.some.injEq, Server.mk.injEq, true_and, and_true]
    refine ⟨?_, ?_, by simp [List.range_succ]⟩
    · funext slot
      by_cases new : slot = k
      · simp [new]
      · have same : slot < k + 1 ↔ slot < k := by omega
        simp [Function.update_of_ne new, same]
    · funext t
      by_cases new : t = k
      · simp [new]
      · have same : t < k + 1 ↔ t < k := by omega
        simp [Function.update_of_ne new, same]

theorem stuck_ended {server : Server S} (ended : server.ended = true) (turn : Turn) :
    Server.step dot table reqs own leave server turn = none := by
  simp [Server.step, ended]

theorem few_of_inside (inside : ∀ frame disk turns server,
    run (Server.step dot table reqs own leave) (.start frame disk) turns = some server →
      ∀ slot ∈ server.accesses, slot < slotCount) : reqs.length ≤ slotCount := by
  by_contra many
  have created := run_created dot table reqs own leave id (fun _ => none)
    slotCount (by omega) (Nat.le_refl _)
  have below : ¬ reqs.length ≤ slotCount := by omega
  -- `x[32] = 32;`
  have outside : Server.step dot table reqs own leave (.created id (fun _ => none) slotCount) .main =
      some ((Server.created id (fun _ => none) slotCount).access slotCount).abort := by
    simp [Server.step, Server.mainStep, Server.created, below]
  have ran := run_snoc created outside
  have small := inside _ _ _ _ ran slotCount (by simp [Server.access, Server.abort])
  omega

theorem stays_of_matched (few : reqs.length ≤ slotCount)
    (matched : ∀ frame disk turns server,
      run (Server.step dot table reqs own leave) (.start frame disk) turns = some server →
        ∀ pair ∈ server.taken, pair.2 = pair.1)
    (once : ∀ frame disk final, Completes dot table reqs own leave (.start frame disk) final →
      ∀ index < reqs.length, (final.taken.map Prod.snd).count index = 1)
    (slot : Nat) (below : slot < reqs.length) : leave slot slot = slot := by
  have created := run_created dot table reqs own leave id (fun _ => none)
    reqs.length (Nat.le_refl _) few
  have leaves : Server.step dot table reqs own leave (.created id (fun _ => none) reqs.length) .main =
      some { Server.created (S := S) id (fun _ => none) reqs.length with
        x := fun slot => leave slot slot, left := true } := by
    simp [Server.step, Server.mainStep, Server.created]
  have before := run_snoc created leaves
  -- the thread reads its slot when `main` is gone
  rcases found : reqs[leave slot slot]? with _ | request
  · have starts : Server.step dot table reqs own leave { Server.created (S := S) id (fun _ => none)
        reqs.length with x := fun slot => leave slot slot, left := true } (.worker slot) =
        some (Server.access { Server.created id (fun _ => none) reqs.length with
          x := fun slot => leave slot slot, left := true } slot).abort := by
      simp [Server.step, Server.workerStep, Server.created, below, found]
    have ran := run_snoc before starts
    have served := once _ _ _ ⟨⟨_, ran⟩, stuck_ended rfl⟩ slot below
    simp [Server.abort, Server.access, Server.created] at served
  · obtain ⟨next, starts, took⟩ : ∃ next, Server.step dot table reqs own leave { Server.created (S := S) id
        (fun _ => none) reqs.length with x := fun slot => leave slot slot, left := true } (.worker slot) =
        some next ∧ (slot, leave slot slot) ∈ next.taken := by
      simp [Server.step, Server.workerStep, Server.created, Server.setWorker, below, found]
    have ran := run_snoc before starts
    exact matched _ _ _ _ ran _ took

variable (dot table reqs own leave) in
-- A thread alone, up to the assertion that fails.
theorem run_fails {server : Server S} {t index n : Nat} {fp : CStr} {arrays : Arrays S}
    {rest : List (Arrays S → Option (Arrays S))} (running : server.ended = false)
    (worker : server.workers t = some (.sorting index fp n arrays rest))
    (fails : Par.execute rest arrays = none) :
    ∃ turns final, run (Server.step dot table reqs own leave) server turns = some final ∧
      final.ended = true ∧ final.taken = server.taken := by
  induction rest generalizing server arrays with
  | nil => simp [Par.execute] at fails
  | cons action rest ih =>
    rcases acted : action arrays with _ | after
    · refine ⟨[.worker t], server.abort, ?_, rfl, rfl⟩
      simp [run, Server.step, running, Server.workerStep, worker, acted]
    · have taken : Server.step dot table reqs own leave server (.worker t) =
          some (server.setWorker t (.sorting index fp n after rest)) := by
        simp [Server.step, running, Server.workerStep, worker, acted]
      have worker' : (server.setWorker t (.sorting index fp n after rest)).workers t =
          some (.sorting index fp n after rest) := by simp [Server.setWorker]
      obtain ⟨turns, final, ran, ended, same⟩ :=
        ih (show (server.setWorker t _).ended = false from running) worker'
          (by simpa [Par.execute, acted] using fails)
      exact ⟨.worker t :: turns, final, (run_cons ..).mpr ⟨_, taken, ran⟩, ended, same⟩

theorem harmless_of_once (few : reqs.length ≤ slotCount)
    (once : ∀ frame disk final, Completes dot table reqs own leave (.start frame disk) final →
      ∀ index < reqs.length, (final.taken.map Prod.snd).count index = 1)
    (several : 2 ≤ reqs.length) (index : Nat) (request : Request P) (found : reqs[index]? = some request) :
    (dealt (own index request)).isSome := by
  by_contra fails
  obtain ⟨below, rfl⟩ := List.getElem?_eq_some_iff.mp found
  have created := run_created dot table reqs own leave id (fun _ => none)
    reqs.length (Nat.le_refl _) few
  obtain ⟨next, starts, worker, running, took⟩ : ∃ next, Server.step dot table reqs own leave
      (.created id (fun _ => none) reqs.length) (.worker index) = some next ∧
      next.workers index = some (.sorting index (tOut reqs[index].id)
        (filterMovies (copyTitle (own index reqs[index]).memory) dot reqs[index] table
          (own index reqs[index]).arrays).1
        (filterMovies (copyTitle (own index reqs[index]).memory) dot reqs[index] table
          (own index reqs[index]).arrays).2
        (own index reqs[index]).trace) ∧ next.ended = false ∧ next.taken = [(index, index)] := by
    simp [Server.step, Server.workerStep, Server.created, Server.setWorker, Server.write, Server.access,
      below]
  have none_ : Par.execute (own index reqs[index]).trace (filterMovies (copyTitle
      (own index reqs[index]).memory) dot reqs[index] table (own index reqs[index]).arrays).2 = none := by
    by_contra ran
    obtain ⟨sorted, ran⟩ := Option.ne_none_iff_exists'.mp ran
    simp [dealt, dealRequest, ran] at fails
  obtain ⟨turns, final, ran, ended, same⟩ := run_fails dot table reqs own leave running worker none_
  have whole := (run_append ..).mpr ⟨_, run_snoc created starts, ran⟩
  -- another request of the batch is never taken
  obtain ⟨other, inside, apart⟩ : ∃ other < reqs.length, other ≠ index := by
    by_cases first : index = 0
    · exact ⟨1, by omega, by omega⟩
    · exact ⟨0, by omega, by omega⟩
  have served := once _ _ _ ⟨⟨_, whole⟩, stuck_ended ended⟩ other inside
  rw [same, took] at served
  simp [apart.symm] at served

-- Nothing happens any more when the process has died before the loop.
theorem boot_dead {rest : List UInt8} (dirty : (scanf [.item .numeral] rest).1 ≠ []) {frame : Nat → Nat}
    {disk : CStr → Option (List CStr)} {turns : List Turn} {server : Server S}
    (ran : run (Server.step dot table reqs own leave) (.boot rest frame disk) turns = some server) :
    server = (Server.start frame disk).abort := by
  have booted : (Server.boot rest frame disk : Server S) = (Server.start frame disk).abort := if_neg dirty
  rw [booted] at ran
  exact (run_stuck ran (stuck_ended rfl)).symm

variable (dot table reqs own leave)

theorem servedAlone_iff (admitted : Admitted reqs) (rest : List UInt8) :
    ServedAlone dot table reqs own leave rest ↔
      (reqs ≠ [] → (scanf [.item .numeral] rest).1 = []) ∧ reqs.length ≤ slotCount ∧
      (∀ slot < reqs.length, leave slot slot = slot) ∧
      (2 ≤ reqs.length → ∀ index request, reqs[index]? = some request →
        (dealt (own index request)).isSome) := by
  by_cases clean : (scanf [.item .numeral] rest).1 = []
  · constructor
    · rintro ⟨inside, matched, once, -⟩
      simp only [boot_start clean] at inside matched once
      have few := few_of_inside inside
      exact ⟨fun _ => clean, few, stays_of_matched few matched once, harmless_of_once few once⟩
    · rintro ⟨-, few, stays, harmless⟩
      exact Servable.servedAlone admitted ⟨few, stays, harmless⟩ clean
  · by_cases nothing : reqs = []
    · subst nothing
      refine ⟨fun _ => by simp, fun _ => ⟨?_, ?_, by simp, by simp⟩⟩
      · intro frame disk turns server ran slot member
        rw [boot_dead clean ran] at member
        cases member
      · intro frame disk turns server ran pair member
        rw [boot_dead clean ran] at member
        cases member
    · refine ⟨fun served => ?_, fun conditions => absurd (conditions.1 nothing) clean⟩
      -- no request is handled
      have dies : Completes dot table reqs own leave (.boot rest id fun _ => none)
          (Server.start id fun _ => none).abort :=
        ⟨⟨[], congrArg some (if_neg clean)⟩, stuck_ended rfl⟩
      have handled := served.once _ _ _ dies 0 (List.length_pos_of_ne_nil nothing)
      cases handled

end

section

variable {P S : Type} [Score S] {dot : P → P → S} {table : List (MovieProfile P)} {request : Request P}

-- `sort` on no movie
theorem sortMatches_none {numOfMovies : Nat} {trace : List (Arrays S → Option (Arrays S))}
    (taken : (sortMatches numOfMovies 0).Trace trace) (arrays : Arrays S) :
    Par.execute trace arrays = none := by
  have layer : 3 - startLayer 0 = 0 := rfl
  rw [sortMatches, if_neg (by decide), layer, mergeSort] at taken
  cases taken with
  | seq before after =>
    cases before with
    | act action => simp [Par.execute, sortAt, sort, Except.toOption]

theorem dealt_isSome_iff (choices : Own dot table request)
    (terminated : ∀ j, (choices.memory j).head? = some 0)
    (above : ∀ movie ∈ table, ∀ byte ∈ movie.title, 9 < byte)
    (nonneg : ∀ movie ∈ table, 0 ≤ dot movie.profile request.profile) :
    (dealt choices).isSome ↔ 1 ≤ (matching dot request table).length := by
  obtain ⟨n, filtered, filtering⟩ : ∃ n filtered, filterMovies (copyTitle choices.memory) dot request table
      choices.arrays = (n, filtered) := ⟨_, _, rfl⟩
  have taken := choices.taken
  rw [filtering] at taken
  constructor
  · intro deals
    by_contra empty
    have count := (filterMovies_slice filtering fun j movie member =>
      copyTitle_proper choices.memory terminated movie.title (above movie member) j).1
    obtain rfl : n = 0 := by omega
    simp [dealt, dealRequest, filtering, sortMatches_none taken] at deals
  · intro nonempty
    obtain ⟨sorted, order, -, -, -, -, output⟩ := dealRequest_sorts choices.memory dot request table
      choices.arrays filtered n choices.trace terminated above nonneg nonempty filtering taken
    simp [dealt, output]

/-- When every request of the batch, and when more than one request, is served as if it were alone. With
NUL-terminated copies of plain titles and no negative score the last condition is that each request has a match. -/
theorem batch_served_iff (dot : P → P → S) (table : List (MovieProfile P)) (reqs : List (Request P))
    (own : Nat → ∀ request : Request P, Own dot table request) (leave : Nat → Nat → Nat)
    (admitted : Admitted reqs) (rest : List UInt8) :
    (ServedAlone dot table reqs own leave rest ↔
      (reqs ≠ [] → (scanf [.item .numeral] rest).1 = []) ∧ reqs.length ≤ slotCount ∧
      (∀ slot < reqs.length, leave slot slot = slot) ∧
      (2 ≤ reqs.length → ∀ index request, reqs[index]? = some request →
        (dealt (own index request)).isSome)) ∧
    ((∀ index request j, ((own index request).memory j).head? = some 0) →
      (∀ movie ∈ table, ∀ byte ∈ movie.title, 9 < byte) →
      (∀ request ∈ reqs, ∀ movie ∈ table, 0 ≤ dot movie.profile request.profile) →
      (ServedAlone dot table reqs own leave rest ↔
        (reqs ≠ [] → (scanf [.item .numeral] rest).1 = []) ∧ reqs.length ≤ slotCount ∧
        (∀ slot < reqs.length, leave slot slot = slot) ∧
        (2 ≤ reqs.length → ∀ request ∈ reqs, 1 ≤ (matching dot request table).length))) := by
  have served := servedAlone_iff dot table reqs own leave admitted rest
  refine ⟨served, fun terminated above nonneg => served.trans ?_⟩
  refine and_congr_right' (and_congr_right' (and_congr_right' (forall_congr' fun _ => ?_)))
  have deals := fun index (request : Request P) (member : request ∈ reqs) =>
    dealt_isSome_iff (own index request) (terminated index request) above (nonneg request member)
  constructor
  · intro dealt request member
    obtain ⟨index, found⟩ := List.mem_iff_getElem?.mp member
    exact (deals index request member).mp (dealt index request found)
  · intro matched index request found
    have member := List.mem_of_getElem? found
    exact (deals index request member).mpr (matched request member)

def Own.inOrder (memory : Nat → List UInt8) (arrays : Arrays S) : Own dot table request where
  memory := memory
  arrays := arrays
  trace := (sortMatches table.length (filterMovies (copyTitle memory) dot request table arrays).1).inOrder
  taken := Par.inOrder_trace _

end

theorem batch_served_two : ServedAlone (S := Int) (fun movie wish : Int => movie * wish)
    [⟨ofChars ['a'], 1, by decide⟩] [⟨7, allMovie, 1⟩, ⟨8, ofChars ['a'], 2⟩]
    (fun _ _ => .inOrder (fun _ => [0]) ⟨fun _ => [], fun _ => 0⟩) (fun _ value => value) [10] := by
  refine ((batch_served_iff _ _ _ _ _ ⟨by decide, by decide⟩ _).2 (fun _ _ _ => rfl) (by simp [ofChars, ascii])
    (by decide)).mpr ⟨fun _ => by decide, by decide, fun _ _ => rfl, by decide⟩

def manyRequests : List (Request Int) := (List.range 33).map fun id => ⟨id, allMovie, 1⟩

-- The 33rd round of the loop writes `x[32]`.
theorem batch_outside : Admitted manyRequests ∧
    ¬ ServedAlone (S := Int) (fun movie wish : Int => movie * wish) [⟨ofChars ['a'], 1, by decide⟩]
      manyRequests (fun _ _ => .inOrder (fun _ => [0]) ⟨fun _ => [], fun _ => 0⟩)
      (fun _ value => value) [] := by
  refine ⟨⟨by decide, by decide⟩, fun served => ?_⟩
  have inside := served.inside
  simp only [boot_start (show (scanf [.item .numeral] []).1 = [] by decide)] at inside
  exact absurd (few_of_inside inside) (by decide)

end SPHomework.MovieSort
