import SPHomework.Tournament.Logs
import SPHomework.Tournament.Machine

set_option autoImplicit false

/-!
# The log files of the machine

The processes with 32-bit numbers write down what they have computed. With
moderate numbers these are the lines of the processes with exact integers.
-/

namespace SPHomework.Tournament

open Lib Network

-- The lines with numbers that a process has computed; all others are about what it has read.
def nodeLines32 (pid : Node → Int) (table : Table) : Node → Local → Status → List Line
  | .battle b, .readRight leftPlayer, rightPlayer =>
    let outputs := battleRound32 b leftPlayer rightPlayer
    [lineFrom pid (.battle b) (child b .left) leftPlayer, lineFrom pid (.battle b) (child b .right) rightPlayer,
      lineTo pid (.battle b) (child b .left) outputs.1, lineTo pid (.battle b) (child b .right) outputs.2.1]
  | .player i, .readDown, currentPlayer =>
    programFrom pid (playerNumber i) currentPlayer ::
      match playerAnswer32 table i currentPlayer with
      | .writeUp answer => [programTo pid (playerNumber i) answer]
      | .writeFifo (some agentId) answer => [.fifoTo i (pid (.player i)) agentId answer.realPlayerId answer.hp]
      | _ => []
  | .agent a, .readDown, currentPlayer =>
    programFrom pid (agentProgramNumber a) currentPlayer ::
      match agentAnswer32 table currentPlayer with
      | .writeUp answer => [programTo pid (agentProgramNumber a) answer]
      | _ => []
  | node, place, status => nodeLines pid table node place status

def nodeRecord32 (pid : Node → Int) (table : Table) : Recorder Node Local Status LogFile (LogFile × Line) :=
  fun node place logFd status =>
    (openLog node place logFd status, (nodeLines32 pid table node place status).map (openLog node place logFd status, ·))

abbrev loggedProgram32 (pid : Node → Int) (table : Table) :
    Node → Noted Local LogFile (LogFile × Line) →
      Action Node Channel Status (Fin 8 ⊕ LogFile × Line) (Noted Local LogFile (LogFile × Line)) :=
  recorded (nodeProgram32 table) (nodeRecord32 pid table)

-- What a run has written to a file.
def contents32 (pid : Node → Int) (table : Table) (labels : List Node) (file : LogFile) : List Line :=
  (writings (nodeProgram32 table) (nodeRecord32 pid table) (logStart pid table) labels).filterMap fun entry =>
    if entry.2.1 = file then some entry.2.2 else none

variable {pid : Node → Int} {table : Table} {labels : List Node} {now : LoggedProcesses}

theorem nodeLines32_eq (moderate : Moderate table) {node : Node} {place : Local} {channel : Channel}
    {next : Status → Local} (promised : Promised place)
    (doing : nodeProgram table node place = .receive channel next) {st : Status} (arrived : PromisedOn channel st) :
    nodeLines32 pid table node place st = nodeLines pid table node place st := by
  cases node with
  | battle b =>
    cases place with
    | readRight l =>
      simp only [nodeProgram, battleProgram, Action.receive.injEq] at doing
      obtain ⟨rfl, -⟩ := doing
      simp only [nodeLines32, battleRound32_eq b promised arrived]
      rfl
    | _ => rfl
  | player i =>
    cases place with
    | readDown =>
      simp only [nodeProgram, playerProgram, pipeProgram, Action.receive.injEq] at doing
      obtain ⟨rfl, -⟩ := doing
      simp only [nodeLines32, playerAnswer32_eq moderate i arrived]
      rfl
    | _ => rfl
  | agent a =>
    cases place with
    | readDown =>
      simp only [nodeProgram, agentProgram, pipeProgram, Action.receive.injEq] at doing
      obtain ⟨rfl, -⟩ := doing
      simp only [nodeLines32, agentAnswer32_eq moderate arrived]
      rfl
    | _ => rfl

-- Where the processes with logs can get.
def Reached (pid : Node → Int) (table : Table) (now : LoggedProcesses) : Prop :=
  ∃ labels, run (step (loggedProgram pid table)) (logStart pid table) labels = some now

theorem Reached.step {p : Node} {next : LoggedProcesses} (reached : Reached pid table now)
    (stepped : now.step (loggedProgram pid table) p = some next) : Reached pid table next := by
  obtain ⟨labels, ran⟩ := reached
  exact ⟨labels ++ [p], run_snoc ran stepped⟩

theorem logged_machine_step (moderate : Moderate table) (p : Node) (reached : Reached pid table now) :
    now.step (loggedProgram32 pid table) p = now.step (loggedProgram pid table) p := by
  obtain ⟨labels, ran⟩ := reached
  obtain ⟨acts, erased⟩ := logged_run ran
  have kept := kept_run (node_contract moderate) (start_kept moderate) erased
  have promised : Promised (now.place p).place := kept.places p
  refine recorded_alike (halted32 now.erase) ?_ ?_
  · rcases machine_alike moderate promised with same | ⟨channel, next, next', doing, doing', agree⟩
    · exact .inl same
    · exact .inr ⟨channel, next, next', doing, doing', fun entry member => agree _ (kept.channels channel entry member)⟩
  · intro channel next doing entry member
    simp only [nodeRecord32, nodeRecord, nodeLines32_eq moderate promised doing (kept.channels channel entry member)]

theorem logged_machine_runs (moderate : Moderate table) (labels : List Node) :
    run (step (loggedProgram32 pid table)) (logStart pid table) labels =
      run (step (loggedProgram pid table)) (logStart pid table) labels :=
  run_agree _ _ (Reached pid table) (fun _ _ _ reached stepped => reached.step stepped)
    (fun _ p reached => logged_machine_step moderate p reached) _ labels ⟨[], rfl⟩

theorem contents32_eq (moderate : Moderate table) (labels : List Node) (file : LogFile) :
    contents32 pid table labels file = contents pid table labels file := by
  rw [contents32, contents, writings_agree (Reached pid table) (fun _ _ _ reached stepped => reached.step stepped)
    (fun _ p reached => logged_machine_step moderate p reached) labels ⟨[], rfl⟩]

theorem logged_machine_ran (moderate : Moderate table)
    (ran : run (step (loggedProgram32 pid table)) (logStart pid table) labels = some now) :
    run (step (loggedProgram pid table)) (logStart pid table) labels = some now ∧
      ∀ p, now.step (loggedProgram32 pid table) p = now.step (loggedProgram pid table) p := by
  rw [logged_machine_runs moderate] at ran
  exact ⟨ran, fun p => logged_machine_step moderate p ⟨labels, ran⟩⟩

theorem logged_halted32 (now : LoggedProcesses) (node : Node) :
    now.halted (loggedProgram32 pid table) node = now.halted (loggedProgram pid table) node := by
  rw [Bool.eq_iff_iff, recorded_halted, recorded_halted, halted32]

/-- Logging stops nobody: some process can go on until all have exited and A has printed a champion. -/
theorem machine_logging_never_blocks (moderate : Moderate table)
    (ran : run (step (loggedProgram32 pid table)) (logStart pid table) labels = some now) :
    (∃ acts, run (step (nodeProgram32 table)) (start table) acts = some now.erase) ∧
    ((∃ node, now.halted (loggedProgram32 pid table) node = false) →
      ∃ node next, now.step (loggedProgram32 pid table) node = some next) ∧
    ((∀ node, now.step (loggedProgram32 pid table) node = none) →
      (∀ node, now.halted (loggedProgram32 pid table) node = true) ∧
        ∃ champion, now.erase.output (.battle .A) = [champion]) := by
  obtain ⟨exact_, same⟩ := logged_machine_ran moderate ran
  have never := logging_never_blocks moderate.toHealthy exact_
  simp only [logged_halted32, same, machine_runs moderate]
  exact never

theorem machine_logging_never_blocks_sample : ∃ labels final,
    run (step (loggedProgram32 (fun _ => 1) sample)) (logStart (fun _ => 1) sample) labels = some final ∧
      (∀ node, final.halted (loggedProgram32 (fun _ => 1) sample) node = true) ∧
      ∃ champion, final.erase.output (.battle .A) = [champion] := by
  obtain ⟨labels, final, ran, halted, -⟩ := logged_complete (fun _ => 1) sample_healthy
  rw [← logged_machine_runs sample_moderate] at ran
  have stuck : ∀ node, final.step (loggedProgram32 (fun _ => 1) sample) node = none := fun node =>
    stuck_halted ((logged_halted32 final node).trans (halted node))
  exact ⟨labels, final, ran, (machine_logging_never_blocks sample_moderate ran).2.2 stuck⟩

/-- Whatever the schedule, the log files end up the same, and hold a part of that on the way. -/
theorem machine_logs_independent_of_schedule (pid : Node → Int) (moderate : Moderate table)
    (flags : ∀ i, (table i).battleEndedFlag = 0) :
    ∃ files : LogFile → List Line, ∀ labels now,
      run (step (loggedProgram32 pid table)) (logStart pid table) labels = some now →
        (∀ file, contents32 pid table labels file <+: files file) ∧
        ((∀ node, now.step (loggedProgram32 pid table) node = none) →
          ∀ file, contents32 pid table labels file = files file) := by
  obtain ⟨files, every⟩ := logs_independent_of_schedule pid moderate.toHealthy flags
  refine ⟨files, fun labels now ran => ?_⟩
  obtain ⟨exact_, same⟩ := logged_machine_ran moderate ran
  simp only [contents32_eq moderate, same]
  exact every labels now exact_

theorem machine_logs_independent_of_schedule_sample :
    ∃ (files : LogFile → List Line) (labels : List Node) (final : LoggedProcesses),
      run (step (loggedProgram32 (fun _ => 1) sample)) (logStart (fun _ => 1) sample) labels = some final ∧
        (∀ node, final.halted (loggedProgram32 (fun _ => 1) sample) node = true) ∧
        ∀ file, contents32 (fun _ => 1) sample labels file = files file := by
  obtain ⟨files, every⟩ := machine_logs_independent_of_schedule (fun _ => 1) sample_moderate (by decide)
  obtain ⟨labels, final, ran, halted, -⟩ := logged_complete (fun _ => 1) sample_healthy
  rw [← logged_machine_runs sample_moderate] at ran
  have gone : ∀ node, final.halted (loggedProgram32 (fun _ => 1) sample) node = true := fun node =>
    (logged_halted32 final node).trans (halted node)
  exact ⟨files, labels, final, ran, gone, (every labels final ran).2 fun node => stuck_halted (gone node)⟩

end SPHomework.Tournament
