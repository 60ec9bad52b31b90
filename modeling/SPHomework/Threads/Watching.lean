import SPHomework.Threads.Selects

set_option autoImplicit false

/-!
# The fifo is watched

While `maxfd` is above the descriptor of the fifo whenever the scheduler asks `select`
about it, `max_subarray` is woken for a record only, and reads all of them in order.
-/

namespace SPHomework.Threads

open Lib

-- At an entry that finds `max_subarray` in the waiting queue, or puts it there.
def Host.awaits (host : Host) : Prop :=
  match host.process.control with
  | .entry jmpval => jmpval = .asyncRead ∨
    ∃ index < host.process.sched.wqSize, host.process.sched.waitingQueue index = some .maxSubarray
  | _ => False

/-- The descriptor of the fifo is among those that `select` looks at. -/
def Watches (setting : Setting) (host : Host) (event : Event) : Prop :=
  event = .schedule → host.awaits → setting.fd .maxSubarray < host.maxfd

-- Each read returns the next record.
def Setting.inOrder (setting : Setting) : Inputs := setting.inputs fun _ => setting.records

-- On the way from the loop of `max_subarray` to the waiting queue.
def Control.asking : Control → Bool
  | .ending _ .asyncRead => true
  | .entry .asyncRead => true
  | _ => false

section

variable {inputs : Inputs} {process next : Process} {func current current' : Func} {loc loc' : Loc}
  {queues queues' : Queues Func}

-- A thread that reads next after a step within the threads did so before, and is not on its way to wait.
theorem Live.read_next {label : Label} (live : Live inputs process current loc queues) (calm : label.calm = true)
    (taken : process.step inputs label = some next) (reading : pointAt next func = some .read)
    (settled : next.control.asking = false) :
    pointAt process func = some .read ∧ process.control.asking = false ∧
      (label = .next → ∀ point, process.control ≠ .code func point) := by
  obtain ⟨loc', live'⟩ := live.step_calm calm taken
  have apart : label = .next → ∀ point, process.control ≠ .code func point := by
    rintro rfl point control
    obtain rfl := live.atCode control
    have stands := live.stands
    rw [control] at stands
    cases stands
    simp only [Process.step, Process.next, control, live.active.runs] at taken
    obtain ⟨act, -, after, -⟩ := live.active.code taken
    have stands' := live'.stands
    rw [after] at settled stands'
    rw [live'.here] at reading
    cases stands'
    cases act with
    | asyncRead => simp [Control.asking] at settled
    | _ => cases reading
  refine ⟨(congrArg Solo.point (live.calmKept calm taken apart)).symm.trans reading, ?_, apart⟩
  cases label with
  | arrive signal =>
    obtain rfl := arrive_installed live.handlers taken
    exact settled
  | deliver signal =>
    -- no signal is delivered there
    obtain ⟨-, deliverable, -⟩ := step_deliver taken
    by_contra asking
    have mask : process.mask = baseMask := by
      rw [live.mask]
      generalize process.control = here at asking
      cases here <;> first | rfl | exact absurd rfl asking
    simp [not_deliverable mask] at deliverable
  | next =>
    have stands := live.stands
    generalize control : process.control = here at stands
    cases stands with
    | ending act =>
      cases act with
      | asyncRead =>
        simp only [Process.step, Process.next, control, live.active.runs, Option.some.injEq] at taken
        subst taken
        cases settled
      | _ => rfl
    | asyncRead => simp [Process.step, Process.next, control] at taken
    | _ => rfl
  | schedule polled blocking => cases calm

-- The threads are created before their first piece.
theorem Phase.created_fresh {label : Label} (phase : Phase inputs process)
    (idle : process.schedBuf = false ∨ createdThreads inputs.args = [])
    (taken : process.step inputs label = some next) (live : Live inputs next current loc queues) (func : Func) :
    pointAt next func = some .start := by
  have unset := idle.resolve_right (List.ne_nil_of_mem live.member)
  have setup : process.control = .setup := by
    by_contra other
    exact Bool.false_ne_true (((step_buffer taken other).trans unset).symm.trans live.active.buffer)
  cases label with
  | next =>
    simp only [Process.step, Process.next, setup, Option.some.injEq] at taken
    exact taken ▸ congrArg Solo.point (created_start (phase.atSetup setup).2.2 func)
  | arrive signal =>
    exact absurd (((arrive_frame taken).1.trans unset).symm.trans live.active.buffer) Bool.false_ne_true
  | deliver signal =>
    obtain ⟨-, -, rfl⟩ := step_deliver taken
    exact absurd (unset.symm.trans live.active.buffer) Bool.false_ne_true
  | schedule polled blocking => simp [Process.step, Process.schedule, setup] at taken

theorem Live.fits (live : Live inputs process current loc queues) (live' : Live inputs process current' loc' queues') :
    queues = queues' :=
  live.active.refines.unique live'.active.refines

end

/-- In a run that watches the fifo: the reads have got the first records in order, and a thread that goes on with
a read has one to get. -/
structure Orderly (setting : Setting) (host : Host) : Prop where
  phase : Phase setting.inOrder host.process
  begun : Begun setting.inOrder host.process
  reads : host.process.reads .maxSubarray = host.taken
  got : host.got = (List.range host.taken).map setting.records
  behind : host.taken ≤ host.written
  stocked : ∀ {current : Func} {loc : Loc} {queues : Queues Func},
    Live setting.inOrder host.process current loc queues → .maxSubarray ∈ queues.ready →
    pointAt host.process .maxSubarray = some .read → host.process.control.asking = false → host.taken < host.written

section

variable {setting : Setting} {host next : Host} {current : Func} {loc : Loc} {queues : Queues Func}

theorem Live.awaits {jmpval : Jump} (live : Live setting.inOrder host.process current loc queues)
    (control : host.process.control = .entry jmpval)
    (waits : jmpval = .asyncRead ∨ .maxSubarray ∈ queues.waiting) : host.awaits := by
  rw [Host.awaits, control]
  refine waits.imp_right fun member => ?_
  obtain ⟨index, inside, same⟩ := List.mem_iff_getElem.mp member
  have holds := live.active.refines.waiting
  exact ⟨index, holds.1 ▸ inside, (holds.get index inside).trans (congrArg some same)⟩

theorem select_found {nfds : Int} (watches : setting.fd .maxSubarray < nfds) {set : FdSet}
    (found : select nfds (host.readable setting) setting.keeps set (setting.fd .maxSubarray) = true) :
    host.taken < host.written := by
  have opened := setting.opened.1
  rw [select, if_neg (by omega)] at found
  simpa [watches, Host.readable] using (Bool.and_eq_true_iff.mp found).2

-- At a read there is a record.
theorem Orderly.record {func : Func} (orderly : Orderly setting host)
    (control : host.process.control = .code func .read) : host.taken < host.written := by
  obtain ⟨rfl, runs⟩ := orderly.phase.atRead control
  rcases orderly.phase.cases_early with early | ⟨_, _, _, live⟩ | ⟨returned, -⟩
  · rw [control] at early
    cases early
  · obtain rfl := live.atCode control
    refine orderly.stocked live (live.active.running ▸ List.getElem_mem live.active.valid) ?_ (by rw [control]; rfl)
    have stands := live.stands
    rw [control] at stands
    rw [live.here]
    cases stands
    rfl
  · cases control.symm.trans returned

theorem Orderly.gets {event : Event} (orderly : Orderly setting host) (taken : host.step setting event = some next) :
    next.got = (List.range next.taken).map setting.records := by
  cases event with
  | next =>
    obtain ⟨process, moved, rfl⟩ := Option.map_eq_some_iff.mp taken
    by_cases reading : ∃ func, host.process.control = .code func .read
    · obtain ⟨func, control⟩ := reading
      have record := orderly.record control
      rw [Host.after_read control]
      simp only [Host.delivered, if_pos record, orderly.got, List.range_succ, List.map_append, List.map_singleton]
    · obtain ⟨-, got, same, -⟩ := Host.after_other setting process
        fun func control => reading ⟨func, control⟩
      rw [got, same, orderly.got]
  | schedule =>
    simp only [Host.step] at taken
    split_ifs at taken
    obtain ⟨process, -, rfl⟩ := Option.map_eq_some_iff.mp taken
    exact orderly.got
  | write =>
    obtain rfl := Option.some.inj taken
    exact orderly.got
  | _ =>
    obtain ⟨process, -, rfl⟩ := Option.map_eq_some_iff.mp taken
    exact orderly.got

theorem agrees_records (count : Nat) :
    Agrees (fun _ => setting.records) ((List.range count).map setting.records) := by
  intro index bytes found
  obtain ⟨inside, same⟩ := List.getElem?_eq_some_iff.mp found
  simpa using same

theorem Orderly.counted (orderly : Orderly setting host) :
    host.got.length = host.process.reads .maxSubarray := by
  rw [orderly.got, List.length_map, List.length_range, orderly.reads]

theorem Orderly.moves {event : Event} (orderly : Orderly setting host) (taken : host.step setting event = some next) :
    (match host.label setting event with
      | some label => host.process.step setting.inOrder label = some next.process
      | none => next.process = host.process) ∧
    next.got.length = next.process.reads .maxSubarray :=
  Host.step_process taken orderly.phase (orderly.gets taken ▸ agrees_records _) orderly.counted

-- Only a read takes a record out of the fifo.
theorem Host.step_fifo {event : Event} (taken : host.step setting event = some next)
    (other : event = .next → ∀ func, host.process.control ≠ .code func .read) :
    next.taken = host.taken ∧ host.written ≤ next.written ∧
      ((event = .next → host.process.control ≠ .setup) → next.maxfd = host.maxfd) := by
  cases event with
  | next =>
    obtain ⟨process, moved, rfl⟩ := Option.map_eq_some_iff.mp taken
    obtain ⟨-, -, same, written, maxfd⟩ := Host.after_other setting process (other rfl)
    exact ⟨same, written.ge, fun apart => maxfd (apart rfl)⟩
  | schedule =>
    simp only [Host.step] at taken
    split_ifs at taken
    obtain ⟨process, -, rfl⟩ := Option.map_eq_some_iff.mp taken
    exact ⟨rfl, le_rfl, fun _ => rfl⟩
  | write =>
    obtain rfl := Option.some.inj taken
    exact ⟨rfl, Nat.le_succ _, fun _ => rfl⟩
  | _ =>
    obtain ⟨process, -, rfl⟩ := Option.map_eq_some_iff.mp taken
    exact ⟨rfl, le_rfl, fun _ => rfl⟩

-- `max_subarray` is woken when there is a record.
theorem Orderly.woken {jmpval : Jump} (orderly : Orderly setting host)
    (watches : Watches setting host .schedule) (resumes : host.hangs setting = false)
    (live : Live setting.inOrder host.process current loc queues)
    (control : host.process.control = .entry jmpval) (reading : pointAt host.process .maxSubarray = some .read)
    (readied : Readied setting.inOrder host.process current queues jmpval (host.polled setting)
      (host.blocking setting) .maxSubarray) (created : .maxSubarray ∈ createdThreads setting.args) :
    host.taken < host.written := by
  by_cases waits : jmpval = .asyncRead ∨ .maxSubarray ∈ queues.waiting
  · have below := watches rfl (live.awaits control waits)
    cases readied with
    | before ready stays =>
      rcases waits with rfl | waits
      · exact absurd (live.reads control).symm (stays rfl)
      · exact absurd waits (live.sound.apart ready)
    | polled _ found => exact select_found below found
    | @blocked set asked found =>
      have asked : blockedOn setting.fd jmpval (host.polled setting) host.process.sched = some set := asked
      simp only [Host.hangs, control, asked, Bool.not_eq_false'] at resumes
      simp only [Host.blocking, resumes, if_true] at found
      exact select_found below found
  · obtain ⟨calm, idle⟩ := not_or.mp waits
    have queued := (live.active.left .maxSubarray created).resolve_right fun gone => by
      rw [pointAt, if_pos gone] at reading
      cases reading
    refine orderly.stocked live ((List.mem_append.mp queued).resolve_right idle) reading ?_
    rw [control]
    cases jmpval <;> first | rfl | exact absurd rfl calm

/-- A thread that goes on with a read has been woken for a record, and nobody else takes it. -/
theorem Orderly.restocked {event : Event} (orderly : Orderly setting host)
    (watches : Watches setting host event) (taken : host.step setting event = some next)
    (live : Live setting.inOrder next.process current loc queues) (ready : .maxSubarray ∈ queues.ready)
    (reading : pointAt next.process .maxSubarray = some .read) (settled : next.process.control.asking = false) :
    next.taken < next.written := by
  obtain ⟨moved, -⟩ := orderly.moves taken
  cases orderly.begun with
  | before idle =>
    cases event with
    | write =>
      have still : next.process = host.process := moved
      rw [still] at live
      exact absurd idle live.idle
    | _ =>
      rw [orderly.phase.created_fresh idle moved live .maxSubarray] at reading
      cases reading
  | @live before loc' queues' earlier _ =>
    cases event with
    | write =>
      obtain rfl := Option.some.inj taken
      exact Nat.lt_succ_of_lt (orderly.stocked live ready reading settled)
    | schedule =>
      obtain ⟨same, more, -⟩ := Host.step_fifo taken (by simp)
      have resumes : host.hangs setting = false := by
        by_contra hangs
        simp [Host.step, hangs] at taken
      obtain ⟨jmpval, control, ⟨returned, -⟩ | ⟨thread, loc'', queues'', later, -, readied, -⟩⟩ :=
        earlier.serves moved
      · exact absurd returned live.unreturned
      · obtain rfl := later.fits live
        have kept := earlier.scheduleKept moved live.unreturned .maxSubarray
        have record := orderly.woken watches resumes earlier control
          ((congrArg Solo.point kept).symm.trans reading) (readied _ ready)
          (live.active.created _ (List.mem_append_left _ ready))
        omega
    | _ =>
      obtain ⟨loc'', later⟩ := earlier.step_calm rfl moved
      obtain rfl := later.fits live
      obtain ⟨reading, settled, apart⟩ := earlier.read_next rfl moved reading settled
      have record := orderly.stocked earlier ready reading settled
      obtain ⟨same, more, -⟩ := Host.step_fifo taken fun next func control => by
        obtain ⟨rfl, -⟩ := orderly.phase.atRead control
        exact apart (by cases next <;> rfl) .read control
      omega
  | ended control _ =>
    cases event with
    | write =>
      have still : next.process = host.process := moved
      exact absurd (congrArg Process.control still |>.trans control) live.unreturned
    | _ => cases (over_step (by rw [control]; rfl)).symm.trans moved

theorem Orderly.step {event : Event} (orderly : Orderly setting host)
    (watches : Watches setting host event) (taken : host.step setting event = some next) :
    Orderly setting next := by
  have got := orderly.gets taken
  obtain ⟨moved, counted⟩ := orderly.moves taken
  have reads : next.process.reads .maxSubarray = next.taken := by
    rw [← counted, got, List.length_map, List.length_range]
  have both : Phase setting.inOrder next.process ∧ Begun setting.inOrder next.process := by
    cases event with
    | write =>
      have still : next.process = host.process := moved
      rw [still]
      exact ⟨orderly.phase, orderly.begun⟩
    | _ => exact ⟨orderly.phase.step moved, orderly.begun.step orderly.phase moved⟩
  have behind : next.taken ≤ next.written := by
    by_cases reading : event = .next ∧ ∃ func, host.process.control = .code func .read
    · obtain ⟨rfl, func, control⟩ := reading
      obtain ⟨process, -, rfl⟩ := Option.map_eq_some_iff.mp taken
      rw [Host.after_read control]
      simp only [if_pos (orderly.record control)]
      exact orderly.record control
    · obtain ⟨same, more, -⟩ := Host.step_fifo taken fun same func control => reading ⟨same, func, control⟩
      rw [same]
      exact orderly.behind.trans more
  exact ⟨both.1, both.2, reads, got, behind, fun live => orderly.restocked watches taken live⟩

theorem Orderly.begin (setting : Setting) (memory : Func → Tcb) : Orderly setting (Host.begin memory) :=
  ⟨.begin _ memory, .before (.inl rfl), rfl, rfl, le_rfl,
    fun live => absurd live.active.buffer (by simp [Host.begin, Process.begin])⟩

theorem Orderly.run {memory : Func → Tcb} {events : List Event}
    (watches : Always (Host.step setting) (Watches setting) (Host.begin memory) events)
    (ran : run (Host.step setting) (Host.begin memory) events = some host) : Orderly setting host :=
  always_invariant (fun _ _ _ orderly watches taken => orderly.step watches taken) (.begin setting memory)
    watches ran

end

/-- `max_subarray` counts its reads, whatever they return, and prints a value after each. -/
inductive Counted (arg : Nat) : Solo → Prop
  | start {vars : Vars} (kept : vars.arg = arg) : Counted arg ⟨vars, [], 0, some .start⟩
  | read {vars : Vars} {values : List Int} (kept : vars.arg = arg) (counts : vars.i = values.length + 1)
    (less : values.length < max 1 arg) : Counted arg ⟨vars, values, values.length, some .read⟩
  | next {vars : Vars} {values : List Int} (kept : vars.arg = arg) (counts : vars.i = values.length)
    (less : values.length < arg) : Counted arg ⟨vars, values, values.length, some .next⟩
  | exited {vars : Vars} {values : List Int} (all : values.length = max 1 arg) :
    Counted arg ⟨vars, values, values.length, none⟩

theorem maxSubarray_frame (vars : Vars) :
    ∃ x y, maxSubarray vars = ({ vars with x := x, y := y }, none, .asyncRead) := by
  by_cases first : vars.i = 1
  · exact ⟨0, 0, by simp only [maxSubarray, first, if_true]⟩
  · exact ⟨vars.x, vars.y, by simp only [maxSubarray, first, if_false]⟩

theorem Counted.advance {arg : Nat} {solo : Solo} (results : Nat → List UInt8) (small : (arg : Int) ≤ intMax)
    (counted : Counted arg solo) : Counted arg (solo.advance .maxSubarray results) := by
  cases counted with
  | @start vars kept =>
    obtain ⟨x, y, ended⟩ := maxSubarray_frame { vars with i := 1 }
    have ran : code .maxSubarray (results 0) .start vars = some (_, none, .asyncRead) := congrArg some ended
    rw [advance_eq rfl ran, if_neg (by decide)]
    exact .read kept rfl (Nat.lt_of_lt_of_le Nat.zero_lt_one (le_max_left 1 arg))
  | @next vars values kept counts less =>
    obtain ⟨x, y, ended⟩ := maxSubarray_frame { vars with i := int32 (vars.i + 1) }
    have ran : code .maxSubarray (results values.length) .next vars = some (_, none, .asyncRead) :=
      congrArg some ended
    rw [advance_eq rfl ran, if_neg (by decide), Option.toList_none, List.append_nil]
    refine .read kept ?_ (Nat.lt_of_lt_of_le less (le_max_right 1 arg))
    dsimp only
    rw [counts, int32_eq] <;> simp only [intMin, intMax] at * <;> omega
  | @read vars values kept counts less =>
    have ran : code .maxSubarray (results values.length) .read vars = some _ :=
      congrArg some (maxSubarrayRead_eq _ vars)
    have length (value : Int) : values.length + 1 = (values ++ [value]).length := by
      rw [List.length_append, List.length_singleton]
    rw [advance_eq rfl ran, if_pos rfl, Option.toList_some]
    dsimp only
    rw [length]
    by_cases last : vars.arg ≤ vars.i
    · rw [if_pos last]
      exact .exited (by rw [← length]; omega)
    · rw [if_neg last]
      exact .next kept (by rw [← length]; exact_mod_cast counts) (by rw [← length]; omega)
  | exited all => exact .exited all

theorem alone_counted {arg : Nat} (small : (arg : Int) ≤ intMax) (results : Nat → List UInt8) (pieces : Nat) :
    Counted arg (alone .maxSubarray arg results pieces) :=
  alone_stage .maxSubarray arg results (fun _ => Counted arg) (.start rfl)
    (fun _ _ counted => counted.advance results small) pieces

theorem Counted.less {arg : Nat} {solo : Solo} (counted : Counted arg solo) (reading : solo.point = some .read) :
    solo.reads < max 1 arg := by
  cases counted with
  | read _ _ less => exact less
  | _ => cases reading

theorem Counted.all {arg : Nat} {solo : Solo} (counted : Counted arg solo) (exited : solo.point = none) :
    solo.reads = max 1 arg := by
  cases counted with
  | exited all => exact all
  | _ => cases exited

theorem Counted.printed {arg : Nat} {solo : Solo} (counted : Counted arg solo) :
    solo.reads = solo.values.length := by
  cases counted <;> rfl

def Setting.number (setting : Setting) (index : Nat) : Int := atoi (setting.records index)

/-- Each number but the last is above the descriptor of the fifo. -/
def Setting.Above (setting : Setting) : Prop :=
  ∀ index, index + 1 < (setting.args .maxSubarray).toNat → setting.fd .maxSubarray < setting.number index

/-- And `maxfd` is what `scheduler` has set it to at its start, or the number read last. -/
structure Aware (setting : Setting) (host : Host) : Prop where
  orderly : Orderly setting host
  maxfd : host.process.schedBuf = true →
    host.maxfd = if host.taken = 0 then setting.dtablesize + 1 else setting.number (host.taken - 1)

section

variable {setting : Setting} {host next : Host} {current : Func} {loc : Loc} {queues : Queues Func}

-- At the entries that wait for a record, `max_subarray` has another one to read.
theorem Orderly.another (orderly : Orderly setting host) (small : setting.args .maxSubarray ≤ intMax)
    (awaits : host.awaits) : host.taken < max 1 (setting.args .maxSubarray).toNat ∧ host.process.schedBuf = true := by
  have entered : ∃ jmpval, host.process.control = .entry jmpval ∧ (jmpval = .asyncRead ∨
      ∃ index < host.process.sched.wqSize, host.process.sched.waitingQueue index = some .maxSubarray) := by
    unfold Host.awaits at awaits
    split at awaits
    · exact ⟨_, ‹_›, awaits⟩
    · exact awaits.elim
  obtain ⟨jmpval, control, waits⟩ := entered
  cases orderly.phase with
  | @live current loc queues live =>
    -- it waits, or is about to
    have asked : .maxSubarray ∈ createdThreads setting.args ∧
        pointAt host.process .maxSubarray = some .read := by
      rcases waits with rfl | ⟨index, inside, same⟩
      · have mine := live.reads control
        exact ⟨mine ▸ live.member, mine ▸ live.asks control⟩
      · have holds := live.active.refines.waiting
        rw [holds.2 index inside] at same
        have member := List.mem_of_getElem? same
        exact ⟨live.active.created _ (List.mem_append_right _ member), (orderly.begun.reader live _ member).2⟩
    obtain ⟨created, reading⟩ := asked
    refine ⟨?_, live.active.buffer⟩
    obtain ⟨arg, natural⟩ := Int.eq_ofNat_of_zero_le ((mem_createdThreads ..).mp created)
    obtain ⟨pieces, tracked⟩ := live.soloAt created
    have counted : Counted arg _ := alone_counted (by omega) (setting.inOrder.results .maxSubarray) pieces
    rw [← natural, show setting.args .maxSubarray = setting.inOrder.args .maxSubarray from rfl, tracked] at counted
    rw [← orderly.reads, natural, Int.toNat_natCast]
    exact counted.less reading
  | empty first sched =>
    obtain rfl : jmpval = .first := Control.entry.inj (control.symm.trans first)
    rw [sched] at waits
    simp [emptySched] at waits
  | stray other => rcases other with ⟨_, other⟩ | other <;> cases control.symm.trans other
  | boot other => cases control.symm.trans other
  | setup other => cases control.symm.trans other
  | ended other => cases control.symm.trans other
  | dead other => cases control.symm.trans other

theorem Host.read_taken {func : Func} (taken : host.step setting .next = some next)
    (control : host.process.control = .code func .read) :
    next.taken = if host.taken < host.written then host.taken + 1 else host.taken := by
  obtain ⟨process, -, rfl⟩ := Option.map_eq_some_iff.mp taken
  rw [Host.after_read control]

-- A record that is read leaves its number in the place of `maxfd`.
theorem Host.read_maxfd {results : Func → Nat → List UInt8} {func : Func} (taken : host.step setting .next = some next)
    (phase : Phase (setting.inputs results) host.process) (control : host.process.control = .code func .read)
    (agrees : Agrees results next.got) (counted : host.got.length = host.process.reads .maxSubarray)
    (some_ : host.taken < host.written) : next.maxfd = setting.number host.taken := by
  obtain ⟨moved, -⟩ := Host.step_process taken phase agrees counted
  obtain ⟨rfl, -⟩ := phase.atRead control
  obtain ⟨_, active⟩ := phase.active_code control
  obtain ⟨after, read, vars⟩ := active.read control
  obtain rfl := Option.some.inj (read.symm.trans moved)
  obtain ⟨process, -, rfl⟩ := Option.map_eq_some_iff.mp taken
  rw [Host.after_read control] at agrees vars ⊢
  have bytes : results .maxSubarray (host.process.reads .maxSubarray) = setting.records host.taken := by
    have found : host.delivered setting = setting.records host.taken := if_pos some_
    refine agrees _ _ ?_
    rw [← counted, ← found]
    exact List.getElem?_concat_length
  rw [Setting.number, ← readNumber_full active.sound (setting.full host.taken), ← bytes]
  exact congrArg (fun vars : Vars => atoi vars.buf) (vars.trans (congrArg Prod.fst (maxSubarrayRead_eq ..)))

theorem Aware.watches (aware : Aware setting host) (above : setting.Above)
    (small : setting.args .maxSubarray ≤ intMax) (event : Event) : Watches setting host event := by
  intro _ awaits
  obtain ⟨more, started⟩ := aware.orderly.another small awaits
  rw [aware.maxfd started]
  split_ifs with first
  · have opened := setting.opened.2
    omega
  · exact above _ (by omega)

theorem Aware.step {event : Event} (aware : Aware setting host) (watches : Watches setting host event)
    (taken : host.step setting event = some next) : Aware setting next := by
  obtain ⟨orderly, maxfd⟩ := aware
  have orderly' := orderly.step watches taken
  refine ⟨orderly', fun started => ?_⟩
  obtain ⟨moved, -⟩ := orderly.moves taken
  by_cases reading : event = .next ∧ ∃ func, host.process.control = .code func .read
  · obtain ⟨rfl, func, control⟩ := reading
    have record := orderly.record control
    have number := Host.read_maxfd taken orderly.phase control (orderly.gets taken ▸ agrees_records _)
      orderly.counted record
    rw [Host.read_taken taken control, if_pos record, if_neg (Nat.succ_ne_zero _), Nat.add_sub_cancel]
    exact number
  have other : event = .next → ∀ func, host.process.control ≠ .code func .read :=
    fun same func control => reading ⟨same, func, control⟩
  obtain ⟨same, -, kept⟩ := Host.step_fifo taken other
  by_cases setup : event = .next ∧ host.process.control = .setup
  · obtain ⟨rfl, control⟩ := setup
    obtain ⟨process, -, rfl⟩ := Option.map_eq_some_iff.mp taken
    have unread := (orderly.phase.atSetup control).2.2.reads .maxSubarray
    rw [same, ← orderly.reads, unread, if_pos rfl]
    simp only [Host.after, control]
  · rw [kept fun same control => setup ⟨same, control⟩, same]
    refine maxfd ?_
    rw [← started]
    cases event with
    | write =>
      have still : next.process = host.process := moved
      rw [still]
    | next => exact (step_buffer moved fun control => setup ⟨rfl, control⟩).symm
    | arrive signal => exact (arrive_frame moved).1.symm
    | schedule => exact (schedule_frame moved).1.symm
    | deliver signal =>
      obtain ⟨-, -, still⟩ := step_deliver moved
      rw [still]
      rfl

theorem Aware.begin (setting : Setting) (memory : Func → Tcb) : Aware setting (Host.begin memory) :=
  ⟨.begin setting memory, fun started => by simp [Host.begin, Process.begin] at started⟩

end

end SPHomework.Threads
