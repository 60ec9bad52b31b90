import SPHomework.Threads.Feeding
import SPHomework.Threads.Sums

set_option autoImplicit false

/-!
# A number in the place of `maxfd`

`max_subarray` prints its maxima in every run exactly when no number but the last
is as small as the descriptor of the fifo: after a smaller one `select` no longer looks
at the fifo, and a record that comes later is missed.
-/

namespace SPHomework.Threads

open Lib

/-- At most `count` values in every run, the right ones, one for each record, and `max_subarray` can always
still exit. -/
structure Host.PrintsAndExits (setting : Setting) (count : Nat) (right : Nat → Int → Prop) : Prop where
  prints : ∀ memory events host, run (Host.step setting) (Host.begin memory) events = some host →
    Prints host.process .maxSubarray count right
  takes : ∀ memory events host, run (Host.step setting) (Host.begin memory) events = some host →
    host.taken = (printedBy host.process .maxSubarray).length
  leaves : ∀ memory events host, run (Host.step setting) (Host.begin memory) events = some host →
    host.process.schedBuf = true → ∃ rest final, run (Host.step setting) host rest = some final ∧
      .maxSubarray ∈ final.process.exited

-- The same host after no more than so many records.
def Host.capped (host : Host) (bound : Nat) : Host := { host with written := min host.written bound }

section

variable {setting : Setting} {host next : Host} {bound : Nat}

theorem Blocking.same {one other : Blocking} (answers : one.answer = other.answer) : one = other := by
  cases one
  cases other
  cases answers
  rfl

/-- Records that the thread cannot read yet, or that `select` does not look at. -/
def Host.Unseen (setting : Setting) (host : Host) (bound : Nat) : Prop :=
  host.taken < bound ∨ host.maxfd ≤ setting.fd .maxSubarray

theorem select_capped (unseen : host.Unseen setting bound) (set : FdSet) :
    select host.maxfd ((host.capped bound).readable setting) setting.keeps set =
      select host.maxfd (host.readable setting) setting.keeps set := by
  unfold select
  split_ifs
  · rfl
  funext fd
  split_ifs with below
  · by_cases fifo : fd = setting.fd .maxSubarray
    · have less := unseen.resolve_right (by omega)
      simp [Host.readable, Host.capped, fifo, less]
    · simp [Host.readable, fifo]
  · rfl

theorem returns_capped (unseen : host.Unseen setting bound) (set : FdSet) :
    (host.capped bound).returns setting set = host.returns setting set := by
  rcases unseen with less | above
  · have same : host.taken < min host.written bound ↔ host.taken < host.written := by omega
    change (_ || _ && _ && decide (host.taken < min host.written bound)) = _
    rw [decide_eq_decide.mpr same]
    rfl
  · have hidden : decide (setting.fd .maxSubarray < host.maxfd) = false := decide_eq_false (by omega)
    change (_ || _ && decide (setting.fd .maxSubarray < host.maxfd) && _) = _
    rw [Host.returns, hidden, Bool.and_false, Bool.false_and, Bool.false_and]
    rfl

/-- So the process takes the same steps without them. -/
theorem Host.step_capped {event : Event} (unseen : host.Unseen setting bound) (other : event ≠ .write)
    (early : ∀ func, event = .next → host.process.control = .code func .read → host.taken < bound)
    (taken : host.step setting event = some next) :
    (host.capped bound).step setting event = some (next.capped bound) := by
  cases event with
  | arrive signal =>
    obtain ⟨process, arrived, rfl⟩ := Option.map_eq_some_iff.mp taken
    exact congrArg (Option.map _) arrived
  | deliver signal =>
    obtain ⟨process, delivered, rfl⟩ := Option.map_eq_some_iff.mp taken
    exact congrArg (Option.map _) delivered
  | write => exact absurd rfl other
  | schedule =>
    have polled : (host.capped bound).polled setting = host.polled setting := select_capped unseen _
    have blocking : (host.capped bound).blocking setting = host.blocking setting := by
      refine Blocking.same (funext fun set => ?_)
      simp only [Host.blocking, returns_capped unseen]
      split_ifs
      · exact select_capped unseen set
      · rfl
    have hangs : (host.capped bound).hangs setting = host.hangs setting := by
      simp only [Host.hangs, polled, returns_capped unseen]
      rfl
    simp only [Host.step] at taken ⊢
    rw [hangs, polled, blocking]
    split_ifs at taken ⊢
    obtain ⟨process, scheduled, rfl⟩ := Option.map_eq_some_iff.mp taken
    exact congrArg (Option.map _) scheduled
  | next =>
    obtain ⟨process, moved, rfl⟩ := Option.map_eq_some_iff.mp taken
    have same : host.taken < bound → (host.taken < min host.written bound ↔ host.taken < host.written) := by omega
    have moved' : host.process.next (setting.inputs fun _ _ => (host.capped bound).delivered setting) =
        some process := by
      rw [← moved]
      refine next_agree fun func _ control _ => ?_
      exact if_congr (same (early func rfl control)) rfl rfl
    refine (congrArg (Option.map _) moved').trans (congrArg some ?_)
    cases control : host.process.control with
    | code func point =>
      cases point with
      | read =>
        have less := same (early func rfl control)
        simp only [Host.after, Host.capped, Host.delivered, control, less]
      | _ => simp only [Host.after, Host.capped, control]
    | _ => simp only [Host.after, Host.capped, control]

-- With the results of its reads, whatever they are, the host follows the process.
theorem Host.follows {memory : Func → Tcb} {events : List Event}
    (ran : run (Host.step setting) (Host.begin memory) events = some host) :
    Phase (setting.inputs fun _ index => host.got.getD index []) host.process := by
  obtain ⟨labels, went, -⟩ := (Host.project ran).2 _ (agrees_got host.got)
  exact Phase.run went

theorem Host.counted {memory : Func → Tcb} {events : List Event}
    (ran : run (Host.step setting) (Host.begin memory) events = some host)
    (created : 0 ≤ setting.args .maxSubarray) (small : setting.args .maxSubarray ≤ intMax) :
    host.process.reads .maxSubarray = (printedBy host.process .maxSubarray).length ∧
      (.maxSubarray ∈ host.process.exited →
        host.process.reads .maxSubarray = max 1 (setting.args .maxSubarray).toNat) := by
  obtain ⟨arg, natural⟩ := Int.eq_ofNat_of_zero_le created
  obtain ⟨_, ⟨pieces, rfl⟩, printed, reads, exited, -⟩ :=
    (Host.follows ran).follows ((mem_createdThreads ..).mpr created)
  have counted : Counted arg _ := alone_counted (by omega) (fun index => host.got.getD index []) pieces
  rw [← natural] at counted
  rw [printed, reads]
  refine ⟨counted.printed, fun gone => ?_⟩
  rw [natural, Int.toNat_natCast]
  exact counted.all (exited gone)

theorem Host.begun (setting : Setting) (memory : Func → Tcb) : ∃ host,
    run (Host.step setting) (Host.begin memory) (List.replicate 4 .next) = some host ∧
      host.process.schedBuf = true := by
  obtain ⟨sched, created, -⟩ := initThreads_created setting.args
  refine ⟨_, rfl, ?_⟩
  change (Process.createThreads _ _).schedBuf = true
  unfold Process.createThreads
  split
  case h_1 fault => cases fault.symm.trans created
  case h_2 => rfl

theorem Host.PrintsAndExits.reads {count : Nat} {right : Nat → Int → Prop}
    (fine : Host.PrintsAndExits setting count right) (created : 0 ≤ setting.args .maxSubarray)
    (small : setting.args .maxSubarray ≤ intMax) {memory : Func → Tcb} {events : List Event}
    (ran : run (Host.step setting) (Host.begin memory) events = some host) : host.got.length = host.taken := by
  rw [(Host.project ran).1, (Host.counted ran created small).1, fine.takes _ _ _ ran]

theorem Host.read_got {func : Func} (taken : host.step setting .next = some next)
    (control : host.process.control = .code func .read) : next.got.length = host.got.length + 1 := by
  obtain ⟨process, -, rfl⟩ := Option.map_eq_some_iff.mp taken
  rw [Host.after_read control, List.length_append, List.length_singleton]

-- A record that is written later, or left out.
theorem Host.write_capped {start : Host} {events : List Event}
    (capped : run (Host.step setting) start events = some (host.capped bound)) :
    ∃ events, run (Host.step setting) start events =
      some (({ host with written := host.written + 1 } : Host).capped bound) := by
  by_cases more : host.written < bound
  · have wrote : (host.capped bound).step setting .write =
        some (({ host with written := host.written + 1 } : Host).capped bound) := by
      simp only [Host.step, Host.capped, Option.some.injEq, Host.mk.injEq, and_self, true_and, and_true]
      omega
    exact ⟨events ++ [.write], run_snoc capped wrote⟩
  · refine ⟨events, capped.trans (congrArg some ?_)⟩
    simp only [Host.capped, Host.mk.injEq, and_self, true_and, and_true]
    omega

/-- A run of a process that prints as it should: it has no more than so many records to read, or it comes to a
read without any when no more are written. -/
theorem Host.PrintsAndExits.capped {count index : Nat} {right : Nat → Int → Prop}
    (fine : Host.PrintsAndExits setting count right) (created : 0 ≤ setting.args .maxSubarray)
    (small : setting.args .maxSubarray ≤ intMax) (low : setting.number index ≤ setting.fd .maxSubarray)
    {memory : Func → Tcb} {events : List Event}
    (ran : run (Host.step setting) (Host.begin memory) events = some host) :
    (host.taken ≤ index + 1 ∧ (host.taken = index + 1 → host.maxfd ≤ setting.fd .maxSubarray) ∧
      ∃ events, run (Host.step setting) (Host.begin memory) events = some (host.capped (index + 1))) ∨
    ∃ events stuck func, run (Host.step setting) (Host.begin memory) events = some stuck ∧
      stuck.process.control = .code func .read ∧ stuck.written ≤ stuck.taken := by
  induction events using List.reverseRecOn generalizing host with
  | nil =>
    obtain rfl := Option.some.inj ran
    exact .inl ⟨Nat.zero_le _, fun full => by simp [Host.begin] at full, [], by simp [Host.capped, Host.begin]⟩
  | append_singleton events event ih =>
    obtain ⟨before, ran', last⟩ := (run_append ..).mp ran
    obtain ⟨after, taken, same⟩ := (run_cons ..).mp last
    obtain rfl := Option.some.inj same
    rcases ih ran' with ⟨few, seen, events', capped⟩ | stuck
    case inr => exact .inr stuck
    by_cases reading : event = .next ∧ ∃ func, before.process.control = .code func .read
    · obtain ⟨rfl, func, control⟩ := reading
      by_cases full : before.taken = index + 1
      · refine .inr ⟨events', _, func, capped, control, ?_⟩
        exact (Nat.min_le_right _ _).trans full.ge
      have gets : after.got.length = before.got.length + 1 := Host.read_got taken control
      have one := fine.reads created small ran
      have other := fine.reads created small ran'
      have next := Host.read_taken taken control
      have some_ : before.taken < before.written := by
        by_contra empty
        rw [if_neg empty] at next
        omega
      rw [if_pos some_] at next
      refine .inl ⟨by omega, fun last => ?_, events' ++ [.next], run_snoc capped ?_⟩
      · obtain ⟨labels, went, -⟩ := (Host.project ran').2 _ ((agrees_got after.got).shorter (Host.step_got taken))
        rw [Host.read_maxfd taken (Phase.run went) control (agrees_got _) (Host.project ran').1 some_]
        rwa [show before.taken = index by omega]
      · exact Host.step_capped (.inl (by omega)) (by simp) (fun _ _ _ => by omega) taken
    by_cases written : event = .write
    · subst written
      obtain rfl := Option.some.inj taken
      exact .inl ⟨few, seen, Host.write_capped capped⟩
    · have unread : event = .next → ∀ func, before.process.control ≠ .code func .read :=
        fun same func control => reading ⟨same, func, control⟩
      obtain ⟨same, -, kept⟩ := Host.step_fifo taken unread
      have unseen : before.Unseen setting (index + 1) := (Nat.lt_or_eq_of_le few).imp_right seen
      refine .inl ⟨by omega, fun full => ?_, events' ++ [event], run_snoc capped
        (Host.step_capped unseen written (fun func same control => absurd control (unread same func)) taken)⟩
      rw [kept fun _ setup => ?_]
      · exact seen (same ▸ full)
      -- nothing has been read when the threads are created
      · have unread := ((Host.follows ran').atSetup setup).2.2.reads .maxSubarray
        have other := fine.reads created small ran'
        rw [← (Host.project ran').1] at unread
        omega

/-- After a number that is not above the descriptor a record can come too late. -/
theorem Host.PrintsAndExits.above {count : Nat} {right : Nat → Int → Prop}
    (fine : Host.PrintsAndExits setting count right) (positive : 1 ≤ setting.args .maxSubarray)
    (small : setting.args .maxSubarray ≤ intMax) : setting.Above := by
  intro index less
  by_contra low
  have created : 0 ≤ setting.args .maxSubarray := by omega
  obtain ⟨begun, ran, started⟩ := Host.begun setting memory0
  obtain ⟨rest, final, goes, exited⟩ := fine.leaves _ _ _ ran started
  have all := (run_append ..).mpr ⟨begun, ran, goes⟩
  have reads := (Host.counted all created small).2 exited
  have same := fine.reads created small all
  rw [(Host.project all).1] at same
  rcases fine.capped created small (Int.not_lt.mp low) all with ⟨few, -⟩ | ⟨events, stuck, func, came, control, empty⟩
  · omega
  -- the read finds nothing, and its value is printed
  obtain ⟨rfl, runs⟩ := (Host.follows came).atRead control
  obtain ⟨next, taken⟩ : ∃ next, stuck.step setting .next = some next := by
    simp only [Host.step, Process.next, control, runs]
    exact ⟨_, rfl⟩
  have one := fine.reads created small (run_snoc came taken)
  have other := fine.reads created small came
  rw [Host.read_got taken control, Host.read_taken taken control, if_neg (by omega)] at one
  omega

end

theorem Setting.delivers (setting : Setting) (count : Nat) :
    Delivers (setting.inOrder.results .maxSubarray) setting.number count :=
  ⟨fun index _ => setting.full index, fun _ _ => rfl⟩

section

variable {setting : Setting} {host : Host} {func : Func}

end

end SPHomework.Threads
