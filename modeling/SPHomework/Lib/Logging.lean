import Mathlib.Data.List.Induction
import SPHomework.Lib.RequestReply

set_option autoImplicit false

/-!
# Networks whose processes keep logs

When a process has taken a message it writes some lines down before it goes on.
Without the lines a run is a run of the plain network, and every complete run of
the plain network can be had with the lines.
-/

namespace SPHomework.Lib

variable {P C M O L K T : Type}

/-- The lines a process writes when it takes a message at a place, and what it keeps in mind. -/
abbrev Recorder (P L M K T : Type) := P → L → K → M → K × List T

/-- A place, with the lines still to be written there. -/
structure Noted (L K T : Type) where
  place : L
  memory : K
  pending : List T

def Action.noted (memory : K) (take : M → K × List T) :
    Action P C M O L → Action P C M (O ⊕ T) (Noted L K T)
  | .send channel message next => .send channel message ⟨next, memory, []⟩
  | .receive channel next =>
    .receive channel fun message => ⟨next message, (take message).1, (take message).2⟩
  | .join child next => .join child ⟨next, memory, []⟩
  | .print text next => .print (.inl text) ⟨next, memory, []⟩
  | .halt => .halt
  | .wrong => .wrong

def recorded (program : P → L → Action P C M O L) (record : Recorder P L M K T) (p : P) :
    Noted L K T → Action P C M (O ⊕ T) (Noted L K T)
  | ⟨place, memory, line :: rest⟩ => .print (.inr line) ⟨place, memory, rest⟩
  | ⟨place, memory, []⟩ => (program p place).noted memory (record p place memory)

namespace Network

-- The network without its logs.
def erase (network : Network P C M (O ⊕ T) (Noted L K T)) : Network P C M O L where
  place p := (network.place p).place
  sent := network.sent
  taken := network.taken
  output p := (network.output p).filterMap Sum.getLeft?

def log (network : Network P C M (O ⊕ T) (Noted L K T)) (p : P) : List T :=
  (network.output p).filterMap Sum.getRight?

variable {program : P → L → Action P C M O L} {record : Recorder P L M K T}
  {network after final : Network P C M (O ⊕ T) (Noted L K T)}

theorem recorded_idle {p : P} (idle : (network.place p).pending = []) :
    recorded program record p (network.place p) =
      (program p (network.erase.place p)).noted (network.place p).memory
        (record p (network.place p).place (network.place p).memory) := by
  cases here : network.place p with
  | mk place memory pending =>
    obtain rfl : pending = [] := by simpa [here] using idle
    simp [recorded, erase, here]

theorem recorded_line {p : P} {line : T} {rest : List T} (pending : (network.place p).pending = line :: rest) :
    recorded program record p (network.place p) =
      .print (.inr line) ⟨(network.place p).place, (network.place p).memory, rest⟩ := by
  cases here : network.place p with
  | mk place memory lines =>
    obtain rfl : lines = line :: rest := by simpa [here] using pending
    rfl

theorem recorded_halted (network : Network P C M (O ⊕ T) (Noted L K T)) (p : P) :
    network.halted (recorded program record) p = true ↔
      (network.place p).pending = [] ∧ network.erase.halted program p = true := by
  unfold halted
  cases lines : (network.place p).pending with
  | cons line rest => simp [recorded_line lines, Action.isHalt]
  | nil =>
    rw [recorded_idle lines]
    cases program p (network.erase.place p) <;> simp [Action.noted, Action.isHalt]

theorem ready_noted {action : Action P C M O L} {memory : K} {take : M → K × List T} {next : Noted L K T}
    (can : network.ready (recorded program record) (action.noted memory take) = some next) :
    network.erase.ready program action = some next.place := by
  cases action with
  | send channel message l => exact congrArg (Option.map Noted.place) can
  | receive channel l =>
    obtain ⟨entry, found, rfl⟩ := Option.map_eq_some_iff.mp can
    exact Option.map_eq_some_iff.mpr ⟨entry, found, rfl⟩
  | join child l =>
    simp only [Action.noted, ready] at can ⊢
    split_ifs at can with done
    rw [if_pos ((recorded_halted network child).mp done).2, ← Option.some.inj can]
  | print text l => exact congrArg (Option.map Noted.place) can
  | halt => cases can
  | wrong => cases can

variable [DecidableEq P]

theorem erase_move (network : Network P C M (O ⊕ T) (Noted L K T)) (p : P) (next : Noted L K T) :
    (network.move p next).erase = network.erase.move p next.place := by
  ext1
  · funext q
    by_cases same : q = p <;> simp [erase, move, same]
  all_goals rfl

variable [DecidableEq C]

theorem erase_effect (network : Network P C M (O ⊕ T) (Noted L K T)) (p : P) (action : Action P C M O L)
    (memory : K) (take : M → K × List T) :
    (network.effect p (action.noted memory take)).erase = network.erase.effect p action := by
  cases action with
  | print text next =>
    ext1
    case output =>
      funext q
      by_cases same : q = p
      · subst same
        simp [Action.noted, erase, effect]
      · simp [Action.noted, erase, effect, same]
    all_goals rfl
  | _ => rfl

theorem log_effect (network : Network P C M (O ⊕ T) (Noted L K T)) (p q : P) (action : Action P C M O L)
    (memory : K) (take : M → K × List T) :
    (network.effect p (action.noted memory take)).log q = network.log q := by
  cases action with
  | print text next =>
    by_cases same : q = p
    · subst same
      simp [Action.noted, log, effect]
    · simp [Action.noted, log, effect, same]
  | _ => rfl

/-- What a step of a process is: it writes a line, or takes a message and makes notes, or does
anything else that the plain network does. -/
inductive Recording (program : P → L → Action P C M O L) (record : Recorder P L M K T)
    (network after : Network P C M (O ⊕ T) (Noted L K T)) (p : P) : Prop where
  | line (line : T) (rest : List T) (pending : (network.place p).pending = line :: rest)
      (place : after.place p = ⟨(network.place p).place, (network.place p).memory, rest⟩)
      (log : after.log p = network.log p ++ [line]) (same : after.erase = network.erase)
  | receives (channel : C) (next : M → L) (entry : P × M) (idle : (network.place p).pending = [])
      (doing : program p (network.place p).place = .receive channel next)
      (found : (network.sent channel)[network.taken channel]? = some entry)
      (place : after.place p = ⟨next entry.2,
        (record p (network.place p).place (network.place p).memory entry.2).1,
        (record p (network.place p).place (network.place p).memory entry.2).2⟩)
      (log : after.log p = network.log p) (step : network.erase.step program p = some after.erase)
  | acts (idle : (network.place p).pending = [])
      (other : ∀ channel next, program p (network.place p).place ≠ .receive channel next)
      (quiet : (after.place p).pending = []) (memory : (after.place p).memory = (network.place p).memory)
      (log : after.log p = network.log p) (step : network.erase.step program p = some after.erase)

theorem step_recording {p : P} (stepped : network.step (recorded program record) p = some after) :
    Recording program record network after p := by
  obtain ⟨next, can, rfl⟩ := step_eq.mp stepped
  have moved (rest : Network P C M (O ⊕ T) (Noted L K T)) : (rest.move p next).place p = next := by simp [move]
  cases lines : (network.place p).pending with
  | cons line rest =>
    rw [recorded_line lines] at can ⊢
    obtain rfl := Option.some.inj can
    refine .line line rest lines (moved _) (by simp [log, move, effect]) ?_
    rw [erase_move]
    ext1
    case place =>
      funext q
      by_cases same : q = p <;> simp [erase, move, effect, same]
    case output =>
      funext q
      by_cases same : q = p
      · subst same
        simp [erase, move, effect]
      · simp [erase, move, effect, same]
    all_goals rfl
  | nil =>
    rw [recorded_idle lines] at can ⊢
    have step : network.erase.step program p = some
        ((network.effect p ((program p (network.erase.place p)).noted (network.place p).memory
          (record p (network.place p).place (network.place p).memory))).move p next).erase := by
      rw [step_eq, erase_move, erase_effect]
      exact ⟨next.place, ready_noted can, rfl⟩
    have log := log_effect network p p (program p (network.erase.place p)) (network.place p).memory
      (record p (network.place p).place (network.place p).memory)
    cases doing : program p (network.erase.place p) with
    | receive channel continue' =>
      rw [doing] at can step log
      obtain ⟨entry, found, rfl⟩ := Option.map_eq_some_iff.mp can
      exact .receives channel continue' entry lines doing found (moved _) log step
    | send channel message l =>
      rw [doing] at can step log
      obtain rfl := Option.some.inj can
      exact .acts lines (by simp [show program p (network.place p).place = _ from doing])
        (by rw [moved]) (by rw [moved]) log step
    | join child l =>
      rw [doing] at can step log
      simp only [Action.noted, ready] at can
      split_ifs at can
      obtain rfl := Option.some.inj can
      exact .acts lines (by simp [show program p (network.place p).place = _ from doing])
        (by rw [moved]) (by rw [moved]) log step
    | print text l =>
      rw [doing] at can step log
      obtain rfl := Option.some.inj can
      exact .acts lines (by simp [show program p (network.place p).place = _ from doing])
        (by rw [moved]) (by rw [moved]) log step
    | halt =>
      rw [doing] at can
      cases can
    | wrong =>
      rw [doing] at can
      cases can

/-- A run with logs is a run without them. -/
theorem erased_run {labels : List P}
    (ran : run (step (recorded program record)) network labels = some after) :
    ∃ acts, run (step program) network.erase acts = some after.erase := by
  induction labels generalizing network with
  | nil =>
    obtain rfl : network = after := Option.some.inj ran
    exact ⟨[], rfl⟩
  | cons p rest ih =>
    obtain ⟨next, stepped, continued⟩ := (run_cons _ network after p rest).mp ran
    obtain ⟨acts, later⟩ := ih continued
    cases step_recording stepped with
    | line _ _ _ _ _ same => exact ⟨acts, same ▸ later⟩
    | receives _ _ _ _ _ _ _ _ step => exact ⟨p :: acts, (run_cons _ _ _ p acts).mpr ⟨_, step, later⟩⟩
    | acts _ _ _ _ _ step => exact ⟨p :: acts, (run_cons _ _ _ p acts).mpr ⟨_, step, later⟩⟩

/-- Nobody has lines left to write. -/
def Settled (network : Network P C M (O ⊕ T) (Noted L K T)) : Prop :=
  ∀ p, (network.place p).pending = []

variable (program record) in
-- A process can always write the lines that it has pending.
theorem writes_out (network : Network P C M (O ⊕ T) (Noted L K T)) (p : P) :
    ∃ labels after, run (step (recorded program record)) network labels = some after ∧
      after.erase = network.erase ∧ (after.place p).pending = [] ∧
      ∀ q, (network.place q).pending = [] → (after.place q).pending = [] := by
  induction lines : (network.place p).pending generalizing network with
  | nil => exact ⟨[], network, rfl, rfl, lines, fun _ idle => idle⟩
  | cons line rest ih =>
    have stepped : ∃ next, network.step (recorded program record) p = some next := by
      simp [step, recorded_line lines, ready]
    obtain ⟨next, stepped⟩ := stepped
    cases step_recording stepped with
    | line line' rest' pending place log same =>
      obtain ⟨rfl, rfl⟩ := List.cons.inj (pending.symm.trans lines)
      obtain ⟨labels, after, ran, erased, idle, kept⟩ := ih next (by rw [place])
      refine ⟨p :: labels, after, (run_cons _ _ _ p labels).mpr ⟨next, stepped, ran⟩,
        erased.trans same, idle, fun q quiet => ?_⟩
      by_cases own : q = p
      · exact own ▸ idle
      · exact kept q (by rw [step_place stepped q own, quiet])
    | receives _ _ _ idle => rw [lines] at idle; cases idle
    | acts idle => rw [lines] at idle; cases idle

variable (program record) in
theorem settles (everyone : List P) (network : Network P C M (O ⊕ T) (Noted L K T)) :
    ∃ labels after, run (step (recorded program record)) network labels = some after ∧
      after.erase = network.erase ∧ ∀ p, p ∈ everyone ∨ (network.place p).pending = [] →
        (after.place p).pending = [] := by
  induction everyone generalizing network with
  | nil => exact ⟨[], network, rfl, rfl, by simp⟩
  | cons p rest ih =>
    obtain ⟨first, middle, wrote, erased, idle, kept⟩ := writes_out program record network p
    obtain ⟨second, after, settled, erased', idle'⟩ := ih middle
    refine ⟨first ++ second, after, (run_append _ _ _ _ _).mpr ⟨middle, wrote, settled⟩,
      erased'.trans erased, ?_⟩
    rintro q (member | quiet)
    · rcases List.mem_cons.mp member with rfl | later
      · exact idle' q (.inr idle)
      · exact idle' q (.inl later)
    · exact idle' q (.inr (kept q quiet))

variable (record) in
omit [DecidableEq P] [DecidableEq C] in
theorem ready_settled (settled : Settled network) {action : Action P C M O L} {next : L}
    (can : network.erase.ready program action = some next) (memory : K) (take : M → K × List T) :
    ∃ noted, network.ready (recorded program record) (action.noted memory take) = some noted := by
  cases action with
  | send channel message l => exact ⟨_, rfl⟩
  | receive channel l =>
    obtain ⟨entry, found, rfl⟩ := Option.map_eq_some_iff.mp can
    exact ⟨_, Option.map_eq_some_iff.mpr ⟨entry, found, rfl⟩⟩
  | join child l =>
    simp only [ready] at can
    split_ifs at can with done
    have halted : network.halted (recorded program record) child = true :=
      (recorded_halted network child).mpr ⟨settled child, done⟩
    exact ⟨_, if_pos halted⟩
  | print text l => exact ⟨_, rfl⟩
  | halt => cases can
  | wrong => cases can

variable (record) in
/-- Every run without logs can be had with them. -/
theorem lifted_run {labels : List P} {last : Network P C M O L} (settled : Settled network)
    (ran : run (step program) network.erase labels = some last) :
    ∃ acts after, run (step (recorded program record)) network acts = some after ∧ after.erase = last ∧
      Settled after := by
  induction labels generalizing network with
  | nil => exact ⟨[], network, rfl, Option.some.inj ran, settled⟩
  | cons p rest ih =>
    obtain ⟨next, stepped, continued⟩ := (run_cons _ _ last p rest).mp ran
    obtain ⟨place, can, -⟩ := step_eq.mp stepped
    obtain ⟨noted, ready⟩ := ready_settled record settled can (network.place p).memory
      (record p (network.place p).place (network.place p).memory)
    have taken : ∃ middle, network.step (recorded program record) p = some middle := by
      simp [step, recorded_idle (settled p), ready]
    obtain ⟨middle, taken⟩ := taken
    have erased : middle.erase = next := by
      cases step_recording taken with
      | line _ _ pending =>
        rw [settled p] at pending
        cases pending
      | receives _ _ _ _ _ _ _ _ step => exact Option.some.inj (step.symm.trans stepped)
      | acts _ _ _ _ _ step => exact Option.some.inj (step.symm.trans stepped)
    -- it writes its lines before anybody else moves
    obtain ⟨lines, quiet, wrote, same, idle, kept⟩ := writes_out program record middle p
    have settled' : Settled quiet := by
      intro q
      by_cases own : q = p
      · exact own ▸ idle
      · exact kept q (by rw [step_place taken q own, settled q])
    obtain ⟨acts, after, later, final, done⟩ := ih settled' (by rw [same, erased]; exact continued)
    exact ⟨p :: (lines ++ acts), after, (run_cons _ _ _ p _).mpr
      ⟨middle, taken, (run_append _ _ _ _ _).mpr ⟨quiet, wrote, later⟩⟩, final, done⟩

section

omit [DecidableEq P] [DecidableEq C]

theorem recorded_receives {p : P} {here : Noted L K T} {channel : C} {next : M → Noted L K T}
    (doing : recorded program record p here = .receive channel next) :
    here.pending = [] ∧ ∃ base, program p here.place = .receive channel base := by
  obtain ⟨place, memory, pending⟩ := here
  cases pending with
  | cons line rest => cases doing
  | nil =>
    cases base : program p place <;>
      simp only [recorded, base, Action.noted, reduceCtorEq, Action.receive.injEq] at doing
    obtain ⟨rfl, -⟩ := doing
    exact ⟨rfl, _, rfl⟩

theorem recorded_sends {p : P} {here next : Noted L K T} {channel : C} {message : M}
    (doing : recorded program record p here = .send channel message next) :
    here.pending = [] ∧ next.pending = [] ∧ program p here.place = .send channel message next.place := by
  obtain ⟨place, memory, pending⟩ := here
  cases pending with
  | cons line rest => cases doing
  | nil =>
    cases base : program p place <;>
      simp only [recorded, base, Action.noted, reduceCtorEq, Action.send.injEq] at doing
    obtain ⟨rfl, rfl, rfl⟩ := doing
    exact ⟨rfl, rfl, rfl⟩

theorem wired_recorded {shared : C → Prop} (wired : Wired program shared) (record : Recorder P L M K T) :
    Wired (recorded program record) shared where
  reader doing doing' := by
    obtain ⟨-, base, receives⟩ := recorded_receives doing
    obtain ⟨-, base', receives'⟩ := recorded_receives doing'
    exact wired.reader receives receives'
  writer plain doing doing' :=
    wired.writer plain (recorded_sends doing).2.2 (recorded_sends doing').2.2

end

/-- If all runs of the plain network end alike, then so do all runs with logs, and in what is logged. -/
theorem recorded_complete {shared : C → Prop} (wired : Wired program shared)
    (everyone : List P) (all : ∀ p, p ∈ everyone) {labels : List P} {last : Network P C M O L}
    (done : ∀ p, last.halted program p = true)
    (single : ∀ channel, shared channel → (last.sent channel).length ≤ 1)
    (ran : run (step program) network.erase labels = some last) :
    ∃ final : Network P C M (O ⊕ T) (Noted L K T), ∃ whole,
      run (step (recorded program record)) network whole = some final ∧ final.erase = last ∧
      (∀ p, final.halted (recorded program record) p = true) ∧
      ∀ taken reached, run (step (recorded program record)) network taken = some reached →
        ∃ rest, run (step (recorded program record)) reached rest = some final := by
  obtain ⟨first, middle, wrote, erased, idle⟩ := settles program record everyone network
  have settled : Settled middle := fun p => idle p (.inl (all p))
  obtain ⟨second, final, later, same, settled'⟩ :=
    lifted_run record settled (by rw [erased]; exact ran)
  have halted : ∀ p, final.halted (recorded program record) p = true := fun p =>
    (recorded_halted final p).mpr ⟨settled' p, same ▸ done p⟩
  have whole := (run_append _ network final first second).mpr ⟨middle, wrote, later⟩
  have few : ∀ channel, shared channel → (final.sent channel).length ≤ 1 := by
    intro channel common
    have sent : final.sent channel = last.sent channel := congrFun (congrArg sent same) channel
    rw [sent]
    exact single channel common
  refine ⟨final, _, whole, same, halted, fun taken reached went => ?_⟩
  obtain ⟨rest, complete, -⟩ := (wired_recorded wired record).complete halted few whole went
  exact ⟨rest, complete⟩

/-- Another program that writes the same lines about the messages that there are. -/
theorem recorded_alike {program' : P → L → Action P C M O L} {record' : Recorder P L M K T}
    (halts : ∀ q, network.erase.halted program' q = network.erase.halted program q) {p : P}
    (alike : program' p (network.place p).place = program p (network.place p).place ∨
      ∃ channel next next', program p (network.place p).place = .receive channel next ∧
        program' p (network.place p).place = .receive channel next' ∧
        ∀ entry ∈ network.sent channel, next' entry.2 = next entry.2)
    (lines : ∀ channel next, program p (network.place p).place = .receive channel next →
      ∀ entry ∈ network.sent channel, record' p (network.place p).place (network.place p).memory entry.2 =
        record p (network.place p).place (network.place p).memory entry.2) :
    network.step (recorded program' record') p = network.step (recorded program record) p := by
  refine step_alike (fun q => ?_) ?_
  · rw [Bool.eq_iff_iff, recorded_halted, recorded_halted, halts]
  cases pending : (network.place p).pending with
  | cons line rest => exact .inl (by rw [recorded_line pending, recorded_line pending])
  | nil =>
    rw [recorded_idle pending, recorded_idle pending]
    cases doing : program p (network.place p).place with
    | receive channel next =>
      have noted := lines channel next doing
      obtain ⟨next', doing', agree⟩ : ∃ next', program' p (network.place p).place = .receive channel next' ∧
          ∀ entry ∈ network.sent channel, next' entry.2 = next entry.2 := by
        rcases alike with same | ⟨channel', before, after, doing'', found, agree⟩
        · exact ⟨next, same.trans doing, fun _ _ => rfl⟩
        · obtain ⟨rfl, rfl⟩ := Action.receive.inj (doing''.symm.trans doing)
          exact ⟨after, found, agree⟩
      refine .inr ⟨channel, _, _, congrArg (Action.noted _ _) doing, congrArg (Action.noted _ _) doing', ?_⟩
      intro entry member
      rw [agree entry member, noted entry member]
    | _ =>
      rcases alike with same | ⟨channel, next, next', doing', -⟩
      · exact .inl (by rw [show network.erase.place p = (network.place p).place from rfl, same, doing]; rfl)
      · rw [doing'] at doing
        cases doing

-- The lines written in a run, by whom, in their order.
def writings (program : P → L → Action P C M O L) (record : Recorder P L M K T) :
    Network P C M (O ⊕ T) (Noted L K T) → List P → List (P × T)
  | _, [] => []
  | network, p :: rest =>
    match network.step (recorded program record) p with
    | none => []
    | some next => ((network.place p).pending.head?.map fun line => (p, line)).toList ++ writings program record next rest

theorem writings_append {first second : List P}
    (ran : run (step (recorded program record)) network first = some after) :
    writings program record network (first ++ second) =
      writings program record network first ++ writings program record after second := by
  induction first generalizing network with
  | nil =>
    obtain rfl : network = after := Option.some.inj ran
    rfl
  | cons p rest ih =>
    obtain ⟨next, stepped, continued⟩ := (run_cons _ network after p rest).mp ran
    simp [writings, stepped, ih continued]

theorem writings_agree {program' : P → L → Action P C M O L} {record' : Recorder P L M K T}
    (Inv : Network P C M (O ⊕ T) (Noted L K T) → Prop)
    (preserved : ∀ network p next, Inv network → network.step (recorded program record) p = some next → Inv next)
    (agree : ∀ network p, Inv network →
      network.step (recorded program' record') p = network.step (recorded program record) p)
    (labels : List P) (initial : Inv network) :
    writings program' record' network labels = writings program record network labels := by
  induction labels generalizing network with
  | nil => rfl
  | cons p rest ih =>
    rw [writings, writings, agree network p initial]
    cases stepped : network.step (recorded program record) p with
    | none => rfl
    | some next => exact congrArg _ (ih (preserved network p next initial stepped))

/-- If those who write to a file do so one after the other, then the file is what the first has
logged, followed by what the next has logged, and so on. -/
theorem writings_in_order {D : Type} (sel : T → Option D) (everyone : List P) (distinct : everyone.Nodup)
    (all : ∀ p, p ∈ everyone) (Inv : Network P C M (O ⊕ T) (Noted L K T) → Prop)
    (kept : ∀ now p next, Inv now → now.step (recorded program record) p = some next → Inv next)
    (turns : ∀ now before p later line, Inv now → everyone = before ++ p :: later →
      (now.place p).pending.head? = some line → (sel line).isSome → ∀ q ∈ later, (now.log q).filterMap sel = [])
    (start : Inv network) (empty : ∀ p, network.log p = []) {labels : List P}
    (ran : run (step (recorded program record)) network labels = some after) :
    (writings program record network labels).filterMap (fun entry => sel entry.2) =
      everyone.flatMap fun p => (after.log p).filterMap sel := by
  induction labels using List.reverseRecOn generalizing after with
  | nil =>
    obtain rfl : network = after := Option.some.inj ran
    simp [writings, empty]
  | append_singleton labels p ih =>
    obtain ⟨middle, went, last⟩ := (run_append _ network after labels [p]).mp ran
    obtain ⟨next, stepped, same⟩ := (run_cons _ middle after p []).mp last
    obtain rfl := Option.some.inj same
    have inv := run_invariant _ Inv kept network middle labels start went
    have written : writings program record middle [p] =
        ((middle.place p).pending.head?.map fun line => (p, line)).toList := by
      simp [writings, stepped]
    rw [writings_append went, written, List.filterMap_append, ih went]
    obtain ⟨before, later, split⟩ := List.append_of_mem (all p)
    have apart : p ∉ before ∧ p ∉ later := by
      rw [split, List.nodup_append] at distinct
      exact ⟨fun member => distinct.2.2 p member p List.mem_cons_self rfl, (List.nodup_cons.mp distinct.2.1).1⟩
    have others : ∀ q, q ≠ p → next.log q = middle.log q := by
      intro q other
      rw [log, step_output stepped q other]
      rfl
    have front : before.flatMap (fun q => (next.log q).filterMap sel) =
        before.flatMap fun q => (middle.log q).filterMap sel :=
      List.flatMap_congr fun q member => by rw [others q (ne_of_mem_of_not_mem member apart.1)]
    have back : later.flatMap (fun q => (next.log q).filterMap sel) =
        later.flatMap fun q => (middle.log q).filterMap sel :=
      List.flatMap_congr fun q member => by rw [others q (ne_of_mem_of_not_mem member apart.2)]
    rw [split, List.flatMap_append, List.flatMap_append, List.flatMap_cons, List.flatMap_cons, front, back]
    cases step_recording stepped with
    | line line rest pending place log same =>
      rw [log, pending, List.filterMap_append]
      cases chosen : sel line with
      | none => simp [chosen]
      | some d =>
        -- nobody that comes later has written to the file yet
        have nothing : later.flatMap (fun q => (middle.log q).filterMap sel) = [] := by
          rw [List.flatMap_eq_nil_iff]
          exact turns middle before p later line inv split (by rw [pending]; rfl) (by rw [chosen]; rfl)
        simp [chosen, nothing]
    | receives _ _ _ idle _ _ _ log => simp [idle, log]
    | acts idle _ _ _ log => simp [idle, log]

/-- A process that writes to such a channel halts with that. -/
def Parting (program : P → L → Action P C M O L) (Last : C → Prop) : Prop :=
  ∀ {p place channel message next}, Last channel → program p place = .send channel message next →
    (program p next).isHalt = true

structure Parted {O L : Type} (program : P → L → Action P C M O L) (Last : C → Prop) (now : Network P C M O L) : Prop where
  halted : ∀ channel entry, Last channel → entry ∈ now.sent channel → now.halted program entry.1 = true
  single : ∀ channel entry channel' entry', Last channel → entry ∈ now.sent channel → Last channel' →
    entry' ∈ now.sent channel' → entry'.1 = entry.1 → channel' = channel

omit [DecidableEq P] [DecidableEq C] in
theorem parting_recorded {Last : C → Prop} (parting : Parting program Last) :
    Parting (recorded program record) Last := by
  intro p place channel message next last doing
  obtain ⟨-, idle, base⟩ := recorded_sends doing
  have halts := parting last base
  obtain ⟨l, memory, pending⟩ := next
  obtain rfl : pending = [] := idle
  cases doing' : program p l <;> simp [doing', Action.isHalt] at halts
  simp [recorded, doing', Action.noted, Action.isHalt]

theorem Parted.step {Last : C → Prop} {now next : Network P C M O L} {p : P} (parting : Parting program Last)
    (parted : Parted program Last now) (stepped : now.step program p = some next) :
    Parted program Last next := by
  have grown : ∀ channel entry, Last channel → entry ∈ next.sent channel → entry ∈ now.sent channel ∨
      entry.1 = p ∧ next.halted program p = true ∧
        ∀ other, other ≠ channel → next.sent other = now.sent other := by
    intro channel entry last member
    cases step_touch channel stepped with
    | sends message doing sent =>
      rw [sent, List.mem_append, List.mem_singleton] at member
      refine member.imp_right fun own => ⟨congrArg Prod.fst own, parting last doing, fun other different => ?_⟩
      cases step_touch other stepped with
      | sends message' doing' => exact absurd (Action.send.inj (doing.symm.trans doing')).1.symm different
      | receives _ _ _ _ _ sent' => exact sent'
      | spares _ sent' => exact sent'
    | receives _ _ _ _ _ sent => exact .inl (sent ▸ member)
    | spares _ sent => exact .inl (sent ▸ member)
  have mover : ∀ channel entry, Last channel → entry ∈ now.sent channel → entry.1 ≠ p := by
    rintro channel entry last member rfl
    have running := halted_step stepped
    rw [parted.halted channel entry last member] at running
    cases running
  constructor
  · intro channel entry last member
    rcases grown channel entry last member with before | ⟨rfl, halts, -⟩
    · exact halted_kept stepped (parted.halted channel entry last before)
    · exact halts
  · intro channel entry channel' entry' last member last' member' same
    rcases grown channel entry last member with before | ⟨own, -, quiet⟩
    · rcases grown channel' entry' last' member' with before' | ⟨own', -, -⟩
      · exact parted.single channel entry channel' entry' last before last' before' same
      · exact absurd (same.symm.trans own') (mover channel entry last before)
    · by_contra different
      rw [quiet channel' different] at member'
      exact mover channel' entry' last' member' (same.trans own)

end Network

end SPHomework.Lib
