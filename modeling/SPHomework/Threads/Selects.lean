import SPHomework.Threads.Reads

set_option autoImplicit false

/-!
# What `select` is asked

`maxfd` is a local variable of `scheduler`, set once at its start. The code of the
threads runs on the same part of the stack, and `num` of `max_subarray` lies where
`maxfd` does: after a number has been read, `select` is asked for that many descriptors.
-/

namespace SPHomework.Threads

open Lib

/-- The arguments of `init_threads`, the descriptors of the fifos, and the records that are written to the fifo
of `max_subarray` one after the other; its writer keeps it open. `keeps` are the descriptors that a `select`
with this first argument leaves in the set although they are not below it. -/
structure Setting where
  args : Func → Int
  fd : Func → Int
  records : Nat → List UInt8
  full : ∀ index, (records index).length = 5
  dtablesize : Int
  opened : 0 ≤ fd .maxSubarray ∧ fd .maxSubarray ≤ dtablesize
  keeps : Int → Int → Bool

def Setting.inputs (setting : Setting) (results : Func → Nat → List UInt8) : Inputs where
  args := setting.args
  results := results
  fd := setting.fd

/-- `select(nfds, &set, NULL, NULL, ..)`, by what it leaves in the set. Where it fails the set stays as it is. -/
def select (nfds : Int) (readable : FdSet) (keeps : Int → Int → Bool) (set : FdSet) : FdSet :=
  if nfds < 0 then set
  else fun fd => set fd && if fd < nfds then readable fd else keeps nfds fd

/-- The process, the value of `maxfd`, and how many records have been written to the fifo and read from it.
`got` is history: what the reads have delivered. -/
structure Host where
  process : Process
  maxfd : Int
  written : Nat
  taken : Nat
  got : List (List UInt8)

inductive Event where
  | arrive (signal : Signal)
  | deliver (signal : Signal)
  | next
  | schedule
  -- the next record is written to the fifo
  | write
  deriving DecidableEq

namespace Host

def begin (memory : Func → Tcb) : Host := ⟨Process.begin memory, 0, 0, 0, []⟩

-- Nobody writes to the fifos of the other threads.
def readable (setting : Setting) (host : Host) : FdSet :=
  fun fd => decide (fd = setting.fd .maxSubarray) && decide (host.taken < host.written)

def polled (setting : Setting) (host : Host) : FdSet :=
  select host.maxfd (host.readable setting) setting.keeps fun _ => true

-- Whether a `select` without a timeout comes back.
def returns (setting : Setting) (host : Host) (set : FdSet) : Bool :=
  decide (host.maxfd < 0) ||
    set (setting.fd .maxSubarray) && decide (setting.fd .maxSubarray < host.maxfd) &&
      decide (host.taken < host.written)

theorem select_subset {nfds : Int} {readable set : FdSet} {keeps : Int → Int → Bool} {fd : Int}
    (left : select nfds readable keeps set fd = true) : set fd = true := by
  unfold select at left
  split_ifs at left
  · exact left
  · exact (Bool.and_eq_true_iff.mp left).1

theorem returns_ready {setting : Setting} {host : Host} {set : FdSet} (returns : host.returns setting set = true)
    (some_ : ∃ fd, set fd = true) :
    ∃ fd, select host.maxfd (host.readable setting) setting.keeps set fd = true := by
  obtain ⟨fd, member⟩ := some_
  by_cases negative : host.maxfd < 0
  · exact ⟨fd, by rw [select, if_pos negative]; exact member⟩
  · simp only [Host.returns, negative, decide_false, Bool.false_or, Bool.and_eq_true, decide_eq_true_eq] at returns
    obtain ⟨⟨watched, below⟩, some_⟩ := returns
    exact ⟨setting.fd .maxSubarray, by simp [select, negative, watched, below, readable, some_]⟩

/-- The `select` without a timeout, where it comes back. -/
def blocking (setting : Setting) (host : Host) : Blocking where
  answer set :=
    if host.returns setting set then select host.maxfd (host.readable setting) setting.keeps set else set
  subset set fd left := by
    split_ifs at left
    · exact select_subset left
    · exact left
  nonempty set some_ := by
    split_ifs with returns
    · exact returns_ready returns some_
    · exact some_

-- The entry comes to a `select` that does not come back.
def hangs (setting : Setting) (host : Host) : Bool :=
  match host.process.control with
  | .entry jmpval =>
    match blockedOn setting.fd jmpval (host.polled setting) host.process.sched with
    | some set => !host.returns setting set
    | none => false
  | _ => false

-- What a `read` of the fifo delivers.
def delivered (setting : Setting) (host : Host) : List UInt8 :=
  if host.taken < host.written then setting.records host.taken else []

/-- After a step of the process: `scheduler` sets `maxfd` at its start, and `max_subarray` sets `num`. -/
def after (setting : Setting) (host : Host) (process : Process) : Host :=
  match host.process.control with
  | .setup => { host with process := process, maxfd := setting.dtablesize + 1 }
  | .code _ .read => { host with
      process := process
      maxfd := atoi (process.heap .maxSubarray).buf
      taken := if host.taken < host.written then host.taken + 1 else host.taken
      got := host.got ++ [host.delivered setting] }
  | _ => { host with process := process }

def step (setting : Setting) (host : Host) : Event → Option Host
  | .arrive signal => (host.process.arrive signal).map fun process => { host with process := process }
  | .deliver signal =>
    (host.process.step (setting.inputs fun _ _ => []) (.deliver signal)).map fun process =>
      { host with process := process }
  | .next => (host.process.next (setting.inputs fun _ _ => host.delivered setting)).map (host.after setting)
  | .schedule =>
    if host.hangs setting then none
    else (host.process.schedule (setting.inputs fun _ _ => []) (host.polled setting)
      (host.blocking setting)).map fun process => { host with process := process }
  | .write => some { host with written := host.written + 1 }

end Host

-- The step of the process that an event is, with the answers of `select`.
def Host.label (setting : Setting) (host : Host) : Event → Option Label
  | .arrive signal => some (.arrive signal)
  | .deliver signal => some (.deliver signal)
  | .next => some .next
  | .schedule => some (.schedule (host.polled setting) (host.blocking setting))
  | .write => none

-- The steps of the process itself.
def Event.own : Event → Bool
  | .arrive _ => false
  | .write => false
  | _ => true

-- The reads of a run have delivered the first of these results.
def Agrees (results : Func → Nat → List UInt8) (got : List (List UInt8)) : Prop :=
  ∀ index bytes, got[index]? = some bytes → results .maxSubarray index = bytes

section

variable {setting : Setting} {host next : Host} {results results' : Func → Nat → List UInt8}

theorem next_agree {process : Process}
    (same : ∀ func thread, process.control = .code func .read → running process.sched = some thread →
      results thread (process.reads thread) = results' thread (process.reads thread)) :
    process.next (setting.inputs results) = process.next (setting.inputs results') := by
  cases control : process.control with
  | code func point =>
    simp only [Process.next, control]
    cases runs : running process.sched with
    | none => rfl
    | some thread =>
      cases point with
      | start => rfl
      | next => rfl
      | read =>
        have bytes := same func thread control runs
        simp only [Process.runCode, Setting.inputs, bytes]
  | _ => simp only [Process.next, control] <;> rfl

-- Only `max_subarray` comes to a read.
theorem Phase.atRead {inputs : Inputs} {process : Process} {func : Func} (phase : Phase inputs process)
    (control : process.control = .code func .read) : func = .maxSubarray ∧ running process.sched = some func := by
  obtain ⟨queues, active⟩ := phase.active_code control
  obtain ⟨pieces, tracked⟩ := active.here.tracked
  exact ⟨alone_reads func (inputs.args func) (inputs.results func) pieces (by rw [tracked]; rfl), active.runs⟩

theorem Phase.read_frame {inputs : Inputs} {process after : Process} {func : Func} (phase : Phase inputs process)
    (control : process.control = .code func .read) (taken : process.next inputs = some after) :
    after.reads .maxSubarray = process.reads .maxSubarray + 1 := by
  obtain ⟨rfl, runs⟩ := phase.atRead control
  simp only [Process.next, control, runs] at taken
  obtain ⟨⟨vars, value, act⟩, -, rfl⟩ := Option.map_eq_some_iff.mp taken
  exact Function.update_self Func.maxSubarray _ process.reads

theorem Host.after_read {process : Process} {func : Func} (control : host.process.control = .code func .read) :
    host.after setting process = { host with
      process := process
      maxfd := atoi (process.heap .maxSubarray).buf
      taken := if host.taken < host.written then host.taken + 1 else host.taken
      got := host.got ++ [host.delivered setting] } := by
  simp only [Host.after, control]

theorem Host.after_other (setting : Setting) (process : Process)
    (other : ∀ func, host.process.control ≠ .code func .read) :
    (host.after setting process).process = process ∧ (host.after setting process).got = host.got ∧
      (host.after setting process).taken = host.taken ∧ (host.after setting process).written = host.written ∧
      (host.process.control ≠ .setup → (host.after setting process).maxfd = host.maxfd) := by
  unfold Host.after
  split
  case h_1 control => exact ⟨rfl, rfl, rfl, rfl, fun apart => absurd control apart⟩
  case h_2 control => exact absurd control (other _)
  case h_3 => exact ⟨rfl, rfl, rfl, rfl, fun _ => rfl⟩

/-- A step of the host is a step of the process, when the reads return what the fifo delivers; or it is the
writer's. -/
theorem Host.step_process {event : Event} (taken : host.step setting event = some next)
    (phase : Phase (setting.inputs results) host.process) (agrees : Agrees results next.got)
    (counted : host.got.length = host.process.reads .maxSubarray) :
    (match host.label setting event with
      | some label => host.process.step (setting.inputs results) label = some next.process
      | none => next.process = host.process) ∧
    next.got.length = next.process.reads .maxSubarray := by
  cases event with
  | arrive signal =>
    obtain ⟨process, arrived, rfl⟩ := Option.map_eq_some_iff.mp taken
    exact ⟨arrived, by rw [(arrive_frame arrived).2]; exact counted⟩
  | deliver signal =>
    obtain ⟨process, delivered, rfl⟩ := Option.map_eq_some_iff.mp taken
    obtain ⟨-, -, same⟩ := step_deliver delivered
    exact ⟨delivered, by rw [same]; exact counted⟩
  | schedule =>
    simp only [Host.step] at taken
    split_ifs at taken
    obtain ⟨process, scheduled, rfl⟩ := Option.map_eq_some_iff.mp taken
    exact ⟨scheduled, by rw [(schedule_frame scheduled).2.1]; exact counted⟩
  | write =>
    obtain rfl := Option.some.inj taken
    exact ⟨rfl, counted⟩
  | next =>
    obtain ⟨process, moved, rfl⟩ := Option.map_eq_some_iff.mp taken
    by_cases reading : ∃ func, host.process.control = .code func .read
    · obtain ⟨func, control⟩ := reading
      obtain ⟨rfl, runs⟩ := phase.atRead control
      rw [Host.after_read control] at agrees ⊢
      have bytes : results .maxSubarray (host.process.reads .maxSubarray) = host.delivered setting :=
        agrees _ _ (by rw [← counted]; exact List.getElem?_concat_length)
      have moved' : host.process.next (setting.inputs results) = some process := by
        rw [← moved]
        refine next_agree fun _ thread _ runs' => ?_
        obtain rfl := Option.some.inj (runs.symm.trans runs')
        exact bytes
      refine ⟨moved', ?_⟩
      rw [phase.read_frame control moved', ← counted, List.length_append]
      rfl
    · have other : ∀ func, host.process.control ≠ .code func .read := fun func control => reading ⟨func, control⟩
      obtain ⟨same, got, -⟩ := Host.after_other setting process other
      rw [same, got]
      refine ⟨?_, by rw [(next_frame moved).2 other]; exact counted⟩
      rw [← moved]
      exact next_agree fun func _ control _ => absurd control (other func)

theorem Host.step_got {event : Event} (taken : host.step setting event = some next) : host.got <+: next.got := by
  cases event with
  | next =>
    obtain ⟨process, -, rfl⟩ := Option.map_eq_some_iff.mp taken
    unfold Host.after
    split
    case h_2 => exact List.prefix_append _ _
    all_goals exact List.prefix_refl _
  | schedule =>
    simp only [Host.step] at taken
    split_ifs at taken
    obtain ⟨process, -, rfl⟩ := Option.map_eq_some_iff.mp taken
    exact List.prefix_refl _
  | write =>
    obtain rfl := Option.some.inj taken
    exact List.prefix_refl _
  | _ =>
    obtain ⟨process, -, rfl⟩ := Option.map_eq_some_iff.mp taken
    exact List.prefix_refl _

theorem Agrees.shorter {few more : List (List UInt8)} (agrees : Agrees results more) (less : few <+: more) :
    Agrees results few := by
  obtain ⟨rest, rfl⟩ := less
  intro index bytes found
  refine agrees index bytes ?_
  rw [List.getElem?_append_left (List.getElem?_eq_some_iff.mp found).1]
  exact found

theorem agrees_got (got : List (List UInt8)) : Agrees (fun _ index => got.getD index []) got := by
  intro index bytes found
  change got.getD index [] = bytes
  rw [List.getD_eq_getElem?_getD, found, Option.getD_some]

/-- A run of the host is a run of the process, with the reads that it has had. -/
theorem Host.project {memory : Func → Tcb} {events : List Event}
    (ran : run (Host.step setting) (Host.begin memory) events = some host) :
    host.got.length = host.process.reads .maxSubarray ∧ ∀ results, Agrees results host.got →
      ∃ labels, run (Process.step (setting.inputs results)) (Process.begin memory) labels = some host.process ∧
        labels.countP Label.own = events.countP Event.own ∧
        ∀ signal, .arrive signal ∈ labels → .arrive signal ∈ events := by
  induction events using List.reverseRecOn generalizing host with
  | nil =>
    obtain rfl := Option.some.inj ran
    exact ⟨rfl, fun _ _ => ⟨[], rfl, rfl, fun _ member => by cases member⟩⟩
  | append_singleton events event ih =>
    obtain ⟨before, ran', last⟩ := (run_append ..).mp ran
    obtain ⟨_, taken, same⟩ := (run_cons ..).mp last
    obtain rfl := Option.some.inj same
    obtain ⟨counted, projects⟩ := ih ran'
    refine ⟨?_, fun results agrees => ?_⟩
    · obtain ⟨labels, went, -⟩ := projects _ ((agrees_got _).shorter (Host.step_got taken))
      exact (Host.step_process taken (Phase.run went) (agrees_got _) counted).2
    obtain ⟨labels, went, own, arrived⟩ := projects results (agrees.shorter (Host.step_got taken))
    obtain ⟨moved, -⟩ := Host.step_process taken (Phase.run went) agrees counted
    simp only [List.countP_append, List.countP_singleton, List.mem_append, List.mem_singleton]
    have earlier := fun signal member => Or.inl (b := Event.arrive signal = event) (arrived signal member)
    cases event with
    | write =>
      have still : _ = before.process := moved
      exact ⟨labels, by rw [still]; exact went, own, earlier⟩
    | _ =>
      refine ⟨labels ++ [_], run_snoc went moved, by rw [List.countP_append, List.countP_singleton, own]; rfl, ?_⟩
      intro signal member
      refine (List.mem_append.mp member).elim (earlier signal) fun last => .inr ?_
      cases List.mem_singleton.mp last <;> rfl

end

end SPHomework.Threads
