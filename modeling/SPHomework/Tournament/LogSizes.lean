import SPHomework.Tournament.LogLinks
import SPHomework.Tournament.Machine

set_option autoImplicit false

/-!
# The size of the log lines

Every line is put together in a buffer of 150 bytes. All numbers in it are ints,
and the longest line is far below that.
-/

namespace SPHomework.Tournament

open Lib Network
open Threads (intMin intMax)

variable {table : Table}

-- `char logBuf[150]`, of which a line and its NUL take a part.
def logBufSize : Nat := 150

def Name.Short : Name → Prop
  | .battle _ => True
  | .program number => number < 15

-- What the arguments of `sprintf` are.
def Line.Sound : Line → Prop
  | .pipeFrom self selfPid other otherPid status =>
    self.Short ∧ IsInt selfPid ∧ other.Short ∧ IsInt otherPid ∧ IsInt status.hp ∧ IsInt status.battleEndedFlag
  | .pipeTo self selfPid other otherPid status =>
    self.Short ∧ IsInt selfPid ∧ other.Short ∧ IsInt otherPid ∧ IsInt status.hp ∧ IsInt status.battleEndedFlag
  | .fifoFrom currentId selfPid _ _ hp => currentId < 15 ∧ IsInt selfPid ∧ IsInt hp
  | .fifoTo currentId selfPid agentId _ hp => currentId < 15 ∧ IsInt selfPid ∧ agentId < 15 ∧ IsInt hp

theorem IsInt.length {value : Int} (int : IsInt value) : (toString value).length ≤ 11 := by
  simp only [IsInt, intMin, intMax] at int
  exact int_text_length value 10 (by decide) (by omega)

theorem number_length {number : Nat} (small : number < 15) : (toString number).length ≤ 2 :=
  nat_text_length number 2 (by decide) (by omega)

theorem id_length (i : Fin 8) : (toString i.val).length ≤ 1 := nat_text_length i.val 1 (by decide) (by omega)

theorem Name.Short.length {name : Name} (short : name.Short) : name.text.length ≤ 2 := by
  cases name with
  | battle id => simp [Name.text]
  | program number => exact number_length short

theorem Summary.length {status : Summary} (hp : IsInt status.hp) (flag : IsInt status.battleEndedFlag) :
    status.text.length ≤ 27 := by
  have first := id_length status.realPlayerId
  have second := hp.length
  have third := flag.length
  have char : status.currentBattleId.toString.length = 1 := String.length_singleton
  simp only [Summary.text, String.length_append, show ",".length = 1 from rfl]
  omega

theorem Line.Sound.fits {line : Line} (sound : line.Sound) : line.text.length < logBufSize := by
  unfold logBufSize
  cases line with
  | pipeFrom self selfPid other otherPid status | pipeTo self selfPid other otherPid status =>
    obtain ⟨short, pid, short', pid', hp, flag⟩ := sound
    have names := short.length
    have names' := short'.length
    have pids := pid.length
    have pids' := pid'.length
    have fields := Summary.length hp flag
    simp only [Line.text, String.length_append, show ",".length = 1 from rfl, show " ".length = 1 from rfl,
      show "\n".length = 1 from rfl, show " pipe from ".length = 11 from rfl, show " pipe to ".length = 9 from rfl]
    omega
  | fifoFrom currentId selfPid sender realPlayerId hp =>
    obtain ⟨small, pid, int⟩ := sound
    have number := number_length small
    have pids := pid.length
    have ids := id_length sender
    have ids' := id_length realPlayerId
    have hps := int.length
    simp only [Line.text, String.length_append, show ",".length = 1 from rfl, show " ".length = 1 from rfl,
      show "\n".length = 1 from rfl, show " fifo from ".length = 11 from rfl]
    omega
  | fifoTo currentId selfPid agentId realPlayerId hp =>
    obtain ⟨small, pid, small', int⟩ := sound
    have number := number_length small
    have number' := number_length small'
    have pids := pid.length
    have ids := id_length realPlayerId
    have hps := int.length
    simp only [Line.text, String.length_append, show ",".length = 1 from rfl, show " ".length = 1 from rfl,
      show "\n".length = 1 from rfl, show " fifo to ".length = 9 from rfl]
    omega

theorem Node.name_short (node : Node) : node.name.Short := by
  cases node with
  | battle b => trivial
  | player i => exact i.isLt.trans (by decide)
  | agent a =>
    have inside := a.isLt
    exact show 8 + a.val < 15 by omega

theorem agentId_small {c : Char} {k : Nat} (found : agentId c = some k) : k < 15 := by
  unfold agentId at found
  split_ifs at found <;> obtain rfl := Option.some.inj found <;> decide

theorem playerAnswer_agent {i : Fin 8} {st answer : Status} {k : Nat}
    (answers : playerAnswer table i st = .writeFifo (some k) answer) : k < 15 := by
  unfold playerAnswer at answers
  split_ifs at answers
  exact agentId_small (Local.writeFifo.inj answers).1

section

variable {pid : Node → Int} (ints : ∀ node, IsInt (pid node))

include ints

theorem parentPid_int (n : Fin 15) : IsInt (parentPid pid n) := by
  unfold parentPid
  split
  · exact ints _
  · exact zero_int

theorem lineFrom_sound (self other : Node) {status : Status} (held : Held status) :
    (lineFrom pid self other status).Sound :=
  ⟨self.name_short, ints self, other.name_short, ints other, held.hp, held.battleEndedFlag⟩

theorem lineTo_sound (self other : Node) {status : Status} (held : Held status) : (lineTo pid self other status).Sound :=
  ⟨self.name_short, ints self, other.name_short, ints other, held.hp, held.battleEndedFlag⟩

theorem programFrom_sound (n : Fin 15) {status : Status} (held : Held status) : (programFrom pid n status).Sound :=
  ⟨n.isLt, ints _, trivial, parentPid_int ints n, held.hp, held.battleEndedFlag⟩

theorem programTo_sound (n : Fin 15) {status : Status} (held : Held status) : (programTo pid n status).Sound :=
  ⟨n.isLt, ints _, trivial, parentPid_int ints n, held.hp, held.battleEndedFlag⟩

/-- What is logged for a message that was read is about statuses that the process has then. -/
theorem nodeLines_sound {node : Node} {place : Local} {channel : Channel} {next : Status → Local} {status : Status}
    (doing : nodeProgram table node place = .receive channel next) (held : Held status)
    (before : ∀ st ∈ place.statuses, Held st) (after : ∀ st ∈ (next status).statuses, Held st) :
    ∀ line ∈ nodeLines pid table node place status, line.Sound := by
  cases node with
  | battle b =>
    cases place with
    | readRight l =>
      simp only [nodeProgram, battleProgram, Action.receive.injEq] at doing
      obtain ⟨-, rfl⟩ := doing
      have first := before l (List.mem_singleton_self l)
      have outputs := List.forall_mem_cons.mp after
      have right := List.forall_mem_singleton.mp outputs.2
      simpa only [nodeLines, battleLines, List.forall_mem_cons, List.not_mem_nil, false_imp_iff, implies_true, and_true]
        using ⟨lineFrom_sound ints _ _ first, lineFrom_sound ints _ _ held, lineTo_sound ints _ _ outputs.1,
          lineTo_sound ints _ _ right⟩
    | readWinner result =>
      intro line member
      rcases List.mem_cons.mp member with rfl | later
      · exact ⟨trivial, ints _, Node.name_short _, ints _, held.hp, held.battleEndedFlag⟩
      · obtain ⟨up, -, rfl⟩ := Option.map_eq_some_iff.mp (Option.mem_toList.mp later)
        exact lineTo_sound ints _ _ held
    | readParent result =>
      intro line member
      rcases List.mem_append.mp member with earlier | last
      · obtain ⟨up, -, rfl⟩ := Option.map_eq_some_iff.mp (Option.mem_toList.mp earlier)
        exact lineFrom_sound ints _ _ held
      · rw [List.mem_singleton.mp last]
        exact ⟨trivial, ints _, Node.name_short _, ints _, held.hp, held.battleEndedFlag⟩
    | _ => exact fun line member => by cases member
  | player i =>
    cases place with
    | readDown =>
      simp only [nodeProgram, playerProgram, pipeProgram, Action.receive.injEq] at doing
      obtain ⟨-, rfl⟩ := doing
      intro line member
      rcases List.mem_cons.mp member with rfl | later
      · exact programFrom_sound ints _ held
      · cases answers : playerAnswer table i status with
        | writeUp answer =>
          rw [answers] at later after
          rw [List.mem_singleton.mp later]
          exact programTo_sound ints _ (after answer (List.mem_singleton_self answer))
        | writeFifo target answer =>
          rw [answers] at later after
          cases target with
          | none => cases later
          | some k =>
            rw [List.mem_singleton.mp later]
            exact ⟨i.isLt.trans (by decide), ints _, playerAnswer_agent answers,
              (after answer (List.mem_singleton_self answer)).hp⟩
        | _ =>
          rw [answers] at later
          cases later
    | _ => exact fun line member => by cases member
  | agent a =>
    have inside := a.isLt
    cases place with
    | readFifo =>
      intro line member
      rcases List.mem_cons.mp member with rfl | later
      · exact ⟨show 8 + a.val < 15 by omega, ints _, held.hp⟩
      · rw [List.mem_singleton.mp later]
        exact programTo_sound ints _ held
    | readDown =>
      simp only [nodeProgram, agentProgram, pipeProgram, Action.receive.injEq] at doing
      obtain ⟨-, rfl⟩ := doing
      intro line member
      rcases List.mem_cons.mp member with rfl | later
      · exact programFrom_sound ints _ held
      · cases answers : agentAnswer table status with
        | writeUp answer =>
          rw [answers] at later after
          rw [List.mem_singleton.mp later]
          exact programTo_sound ints _ (after answer (List.mem_singleton_self answer))
        | _ =>
          rw [answers] at later
          cases later
    | _ => exact fun line member => by cases member

-- What has been logged, and what is about to be.
structure AllSound (pid : Node → Int) (table : Table) (now : LoggedProcesses) : Prop where
  reached : ∃ acts, run (step (nodeProgram table)) (start table) acts = some now.erase
  lines : ∀ node, ∀ entry ∈ now.log node ++ (now.place node).pending, entry.2.Sound

theorem AllSound.step (moderate : Moderate table) (flags : ∀ i, (table i).battleEndedFlag = 0)
    {now after : LoggedProcesses} {p : Node} (sound : AllSound pid table now)
    (stepped : now.step (loggedProgram pid table) p = some after) : AllSound pid table after := by
  obtain ⟨acts, reached⟩ := sound.reached
  have clean := held_run moderate flags reached
  -- the others have what they had
  have others : ∀ q, q ≠ p → ∀ entry ∈ after.log q ++ (after.place q).pending, entry.2.Sound := by
    intro q other
    have log : after.log q = now.log q := by rw [log, step_output stepped q other, log]
    rw [log, step_place stepped q other]
    exact sound.lines q
  have mine := List.forall_mem_append.mp (sound.lines p)
  cases step_recording stepped with
  | line line rest pending place log same =>
    rw [pending] at mine
    have lines := List.forall_mem_cons.mp mine.2
    refine ⟨⟨acts, same ▸ reached⟩, fun q => ?_⟩
    by_cases own : q = p
    · subst own
      rw [log, place, List.append_assoc]
      exact List.forall_mem_append.mpr ⟨mine.1, List.forall_mem_cons.mpr ⟨lines.1, lines.2⟩⟩
    · exact others q own
  | receives channel next entry idle doing found place log step =>
    have later := run_snoc reached step
    have clean' := held_run moderate flags later
    refine ⟨⟨_, later⟩, fun q => ?_⟩
    by_cases own : q = p
    · subst own
      have arrived : after.erase.place q = next entry.2 := congrArg Noted.place place
      have sound := nodeLines_sound ints doing
        (clean.channels channel entry (List.mem_of_getElem? found)) (clean.places q) (arrived ▸ clean'.places q)
      rw [log, place]
      refine List.forall_mem_append.mpr ⟨mine.1, fun line member => ?_⟩
      obtain ⟨text, inside, rfl⟩ := List.mem_map.mp member
      exact sound text inside
    · exact others q own
  | acts idle other quiet memory log step =>
    refine ⟨⟨_, run_snoc reached step⟩, fun q => ?_⟩
    by_cases own : q = p
    · subst own
      rw [log, quiet, List.append_nil]
      exact mine.1
    · exact others q own

theorem start_sound (moderate : Moderate table) (flags : ∀ i, (table i).battleEndedFlag = 0) :
    AllSound pid table (logStart pid table) := by
  refine ⟨⟨[], by rw [logStart_erase]; rfl⟩, fun node entry member => ?_⟩
  cases node with
  | player i =>
    obtain rfl := List.mem_singleton.mp member
    exact programTo_sound ints _ (moderate_held moderate flags i)
  | _ => cases member

/-- No line of a log ever runs over its buffer. -/
theorem log_lines_fit (moderate : Moderate table) (flags : ∀ i, (table i).battleEndedFlag = 0) {labels : List Node}
    {now : LoggedProcesses} (ran : run (step (loggedProgram pid table)) (logStart pid table) labels = some now)
    (file : LogFile) : ∀ line ∈ contents pid table labels file, line.text.length < logBufSize := by
  have sound := run_invariant _ (AllSound pid table) (fun _ _ _ before stepped => before.step ints moderate flags stepped)
    _ now labels (start_sound ints moderate flags) ran
  intro line member
  rw [contents_in_order moderate.toHealthy flags ran file] at member
  obtain ⟨node, -, written⟩ := List.mem_flatMap.mp member
  obtain ⟨entry, logged, chosen⟩ := List.mem_filterMap.mp written
  split_ifs at chosen
  obtain rfl := Option.some.inj chosen
  exact (sound.lines node entry (List.mem_append_left _ logged)).fits

end

theorem log_lines_fit_sample : ∃ labels final,
    run (step (loggedProgram (fun _ => 1) sample)) (logStart (fun _ => 1) sample) labels = some final ∧
      ∀ line ∈ contents (fun _ => 1) sample labels (.player 0), line.text.length < logBufSize := by
  obtain ⟨labels, final, ran, -⟩ := logged_complete (fun _ => 1) sample_healthy
  exact ⟨labels, final, ran, log_lines_fit (fun _ => one_int) sample_moderate (by decide) ran (.player 0)⟩

end SPHomework.Tournament
