import SPHomework.Lib.Mirror
import SPHomework.Tournament.Links
import SPHomework.Tournament.Statuses

set_option autoImplicit false

/-!
# The log files

Each process appends a line for every status that it takes or is about to send.
A battle has a file of its own; a real player and the agent that stands in for
it later share one.
-/

namespace SPHomework.Tournament

open Lib Network

/-- What the lines call a process: `%c` for a battle, `%d` for a program. -/
inductive Name where
  | battle (id : Char)
  | program (number : Nat)
  deriving DecidableEq

def Node.name : Node → Name
  | .battle b => .battle b.char
  | .player i => .program i
  | .agent a => .program (agentNumber a)

-- The fields of a status that are logged.
structure Summary where
  realPlayerId : Fin 8
  hp : Int
  currentBattleId : Char
  battleEndedFlag : Int
  deriving DecidableEq

def Status.summary (status : Status) : Summary :=
  ⟨status.realPlayerId, status.hp, status.currentBattleId, status.battleEndedFlag⟩

inductive Line where
  | pipeFrom (self : Name) (selfPid : Int) (other : Name) (otherPid : Int) (status : Summary)
  | pipeTo (self : Name) (selfPid : Int) (other : Name) (otherPid : Int) (status : Summary)
  | fifoFrom (currentId : Nat) (selfPid : Int) (sender realPlayerId : Fin 8) (hp : Int)
  | fifoTo (currentId : Nat) (selfPid : Int) (agentId : Nat) (realPlayerId : Fin 8) (hp : Int)
  deriving DecidableEq

def Name.text : Name → String
  | .battle id => id.toString
  | .program number => toString number

def Summary.text (status : Summary) : String :=
  toString status.realPlayerId.val ++ "," ++ toString status.hp ++ "," ++ status.currentBattleId.toString ++ "," ++
    toString status.battleEndedFlag

-- What `sprintf` makes of a line.
def Line.text : Line → String
  | .pipeFrom self selfPid other otherPid status =>
    self.text ++ "," ++ toString selfPid ++ " pipe from " ++ other.text ++ "," ++ toString otherPid ++ " " ++
      status.text ++ "\n"
  | .pipeTo self selfPid other otherPid status =>
    self.text ++ "," ++ toString selfPid ++ " pipe to " ++ other.text ++ "," ++ toString otherPid ++ " " ++
      status.text ++ "\n"
  | .fifoFrom currentId selfPid sender realPlayerId hp =>
    toString currentId ++ "," ++ toString selfPid ++ " fifo from " ++ toString sender.val ++ " " ++
      toString realPlayerId.val ++ "," ++ toString hp ++ "\n"
  | .fifoTo currentId selfPid agentId realPlayerId hp =>
    toString currentId ++ "," ++ toString selfPid ++ " fifo to " ++ toString agentId ++ " " ++
      toString realPlayerId.val ++ "," ++ toString hp ++ "\n"

/-- The files: `log_battle%c.txt` and `log_player%d.txt`. -/
inductive LogFile where
  | battle (id : BattleId)
  | player (id : Fin 8)
  deriving DecidableEq

def lineFrom (pid : Node → Int) (self other : Node) (status : Status) : Line :=
  .pipeFrom self.name (pid self) other.name (pid other) status.summary

def lineTo (pid : Node → Int) (self other : Node) (status : Status) : Line :=
  .pipeTo self.name (pid self) other.name (pid other) status.summary

-- What battle.c logs when it has read a status at a place, up to its next write. In one of the
-- branches it takes the id from `leftPlayer`, of which `leftOutput` is a copy.
def battleLines (pid : Node → Int) (b : BattleId) : Local → Status → List Line
  | .readRight leftPlayer, rightPlayer =>
    let outputs := battleRound b leftPlayer rightPlayer
    [lineFrom pid (.battle b) (child b .left) leftPlayer, lineFrom pid (.battle b) (child b .right) rightPlayer,
      lineTo pid (.battle b) (child b .left) outputs.1, lineTo pid (.battle b) (child b .right) outputs.2.1]
  | .readWinner result, winnerStatus =>
    .pipeFrom (.battle b.char) (pid (.battle b)) (child b result.ending.winnerId).name
        (pid (child b result.ending.winnerPid)) winnerStatus.summary ::
      ((btl b).parent.map fun up => lineTo pid (.battle b) (.battle up) winnerStatus).toList
  | .readParent result, winnerStatus =>
    ((btl b).parent.map fun up => lineFrom pid (.battle b) (.battle up) winnerStatus).toList ++
      [.pipeTo (.battle b.char) (pid (.battle b)) (child b result.ending.winnerId).name
        (pid (child b result.ending.winnerPid)) winnerStatus.summary]
  | _, _ => []

-- `argv[2]` of a program: the battle that forked it.
def parentPid (pid : Node → Int) (n : Fin 15) : Int :=
  match above (program n) with
  | some b => pid (.battle b)
  | none => 0

def programFrom (pid : Node → Int) (currentId : Fin 15) (status : Status) : Line :=
  .pipeFrom (.program currentId) (pid (program currentId)) (.battle (parent currentId)) (parentPid pid currentId)
    status.summary

def programTo (pid : Node → Int) (currentId : Fin 15) (status : Status) : Line :=
  .pipeTo (.program currentId) (pid (program currentId)) (.battle (parent currentId)) (parentPid pid currentId)
    status.summary

def playerNumber (i : Fin 8) : Fin 15 := ⟨i, by omega⟩

def agentProgramNumber (a : Fin 7) : Fin 15 := ⟨agentNumber a, by unfold agentNumber; omega⟩

-- The lines of the real player's loop; what is logged before a write is what is written.
def playerLines (pid : Node → Int) (table : Table) (i : Fin 8) : Local → Status → List Line
  | .readDown, currentPlayer =>
    programFrom pid (playerNumber i) currentPlayer ::
      match playerAnswer table i currentPlayer with
      | .writeUp answer => [programTo pid (playerNumber i) answer]
      | .writeFifo (some agentId) answer => [.fifoTo i (pid (.player i)) agentId answer.realPlayerId answer.hp]
      | _ => []
  | _, _ => []

def agentLines (pid : Node → Int) (table : Table) (a : Fin 7) : Local → Status → List Line
  | .readFifo, pssm =>
    [.fifoFrom (agentNumber a) (pid (.agent a)) pssm.realPlayerId pssm.realPlayerId pssm.hp,
      programTo pid (agentProgramNumber a) pssm]
  | .readDown, currentPlayer =>
    programFrom pid (agentProgramNumber a) currentPlayer ::
      match agentAnswer table currentPlayer with
      | .writeUp answer => [programTo pid (agentProgramNumber a) answer]
      | _ => []
  | _, _ => []

def nodeLines (pid : Node → Int) (table : Table) : Node → Local → Status → List Line
  | .battle b => battleLines pid b
  | .player i => playerLines pid table i
  | .agent a => agentLines pid table a

/-- What `logFd` refers to. An agent opens its log when the fifo has told it the player. -/
def openLog : Node → Local → LogFile → Status → LogFile
  | .agent _, .readFifo, _, pssm => .player pssm.realPlayerId
  | _, _, logFd, _ => logFd

def nodeRecord (pid : Node → Int) (table : Table) : Recorder Node Local Status LogFile (LogFile × Line) :=
  fun node place logFd status =>
    (openLog node place logFd status, (nodeLines pid table node place status).map (openLog node place logFd status, ·))

abbrev loggedProgram (pid : Node → Int) (table : Table) :
    Node → Noted Local LogFile (LogFile × Line) →
      Action Node Channel Status (Fin 8 ⊕ LogFile × Line) (Noted Local LogFile (LogFile × Line)) :=
  recorded (nodeProgram table) (nodeRecord pid table)

abbrev LoggedProcesses :=
  Network Node Channel Status (Fin 8 ⊕ LogFile × Line) (Noted Local LogFile (LogFile × Line))

def logStart (pid : Node → Int) (table : Table) : LoggedProcesses where
  place
    | .battle b => ⟨.readLeft, .battle b, []⟩
    | .player i => ⟨.writeUp (playerStatus table i), .player i,
      [(.player i, programTo pid (playerNumber i) (playerStatus table i))]⟩
    -- nothing is open yet
    | .agent _ => ⟨.readFifo, .player 0, []⟩
  sent _ := []
  taken _ := 0
  output _ := []

theorem logStart_erase (pid : Node → Int) (table : Table) : (logStart pid table).erase = start table := by
  ext1
  · funext node
    cases node <;> rfl
  all_goals rfl

-- What a run has written to a file.
def contents (pid : Node → Int) (table : Table) (labels : List Node) (file : LogFile) : List Line :=
  (writings (nodeProgram table) (nodeRecord pid table) (logStart pid table) labels).filterMap fun entry =>
    if entry.2.1 = file then some entry.2.2 else none

variable {pid : Node → Int} {table : Table}

theorem logged_run {labels : List Node} {now : LoggedProcesses}
    (ran : run (step (loggedProgram pid table)) (logStart pid table) labels = some now) :
    ∃ acts, run (step (nodeProgram table)) (start table) acts = some now.erase := by
  have erased := erased_run ran
  rwa [logStart_erase] at erased

variable (pid) in
/-- All runs with logs can be completed, and end in the same network and with the same logs. -/
theorem logged_complete (healthy : Healthy table) :
    ∃ whole, ∃ final : LoggedProcesses,
      run (step (loggedProgram pid table)) (logStart pid table) whole = some final ∧
      (∀ node, final.halted (loggedProgram pid table) node = true) ∧
      ∀ labels now, run (step (loggedProgram pid table)) (logStart pid table) labels = some now →
        ∃ rest, run (step (loggedProgram pid table)) now rest = some final := by
  obtain ⟨labels, last, results, ran, complete, -⟩ := complete_run healthy
  rw [← logStart_erase pid table] at ran
  obtain ⟨final, whole, ran', -, halted, every⟩ :=
    recorded_complete (nodeProgram_wired table) nodes mem_nodes complete.halted (fifo_single complete) ran
  exact ⟨whole, final, ran', halted, every⟩

/-- Logging stops nobody: some process can go on until all have exited and A has printed a champion. -/
theorem logging_never_blocks (healthy : Healthy table) {labels : List Node} {now : LoggedProcesses}
    (ran : run (step (loggedProgram pid table)) (logStart pid table) labels = some now) :
    (∃ acts, run (step (nodeProgram table)) (start table) acts = some now.erase) ∧
    ((∃ node, now.halted (loggedProgram pid table) node = false) →
      ∃ node next, now.step (loggedProgram pid table) node = some next) ∧
    ((∀ node, now.step (loggedProgram pid table) node = none) →
      (∀ node, now.halted (loggedProgram pid table) node = true) ∧
        ∃ champion, now.erase.output (.battle .A) = [champion]) := by
  obtain ⟨whole, final, -, halted, every⟩ := logged_complete pid healthy
  obtain ⟨rest, continued⟩ := every labels now ran
  obtain ⟨acts, erased⟩ := logged_run ran
  refine ⟨⟨acts, erased⟩, ?_, ?_⟩
  · rintro ⟨node, live⟩
    cases rest with
    | nil =>
      obtain rfl : now = final := Option.some.inj continued
      rw [halted node] at live
      cases live
    | cons first rest =>
      obtain ⟨next, stepped, -⟩ := (run_cons _ now final first rest).mp continued
      exact ⟨first, next, stepped⟩
  · intro stuck
    obtain rfl := run_stuck continued stuck
    refine ⟨halted, ?_⟩
    have done : ∀ node, now.erase.step (nodeProgram table) node = none := fun node =>
      stuck_halted ((recorded_halted now node).mp (halted node)).2
    obtain ⟨_, last, _, complete, _, every⟩ := runs_complete healthy
    obtain ⟨rest', ran', -⟩ := every acts now.erase erased
    obtain rfl := stuck_final ran' done
    obtain ⟨result, -, printed⟩ := complete.printed erased
    exact ⟨_, printed⟩

-- A player that has written to a fifo exits.
theorem players_part (table : Table) : Parting (nodeProgram table) IsFifo := by
  intro p place channel message next fifo doing
  obtain writes | ⟨-, i, rfl⟩ := sends_writer table doing
  · cases channel with
    | fifo k => cases writes
    | up node => cases fifo
    | down node => cases fifo
  · cases place with
    | writeFifo target st =>
      cases target with
      | none => simp [nodeProgram, playerProgram] at doing
      | some k =>
        simp only [nodeProgram, playerProgram, Action.send.injEq] at doing
        obtain ⟨-, -, rfl⟩ := doing
        rfl
    | writeUp st =>
      simp only [nodeProgram, playerProgram, pipeProgram, Action.send.injEq] at doing
      obtain ⟨rfl, -⟩ := doing
      cases fifo
    | _ => simp [nodeProgram, playerProgram, pipeProgram] at doing

/-- The file that a process logs to. For an agent it is that of the player that the fifo named. -/
def Filed (now : LoggedProcesses) (node : Node) (file : LogFile) : Prop :=
  match node with
  | .battle b => file = .battle b
  | .player i => file = .player i
  | .agent a => ∃ entry, (now.sent (.fifo (agentNumber a))).head? = some entry ∧ file = .player entry.2.realPlayerId

structure InFiles (now : LoggedProcesses) : Prop where
  logged : ∀ node, ∀ line ∈ now.log node ++ (now.place node).pending, Filed now node line.1
  open_ : ∀ node, (∀ a, node = .agent a → (now.place node).place ≠ .readFifo) →
    Filed now node (now.place node).memory
  unread : ∀ a, (now.place (.agent a)).place = .readFifo → now.taken (.fifo (agentNumber a)) = 0

theorem Filed.kept {now next : LoggedProcesses} {node p : Node} {file : LogFile}
    (stepped : now.step (loggedProgram pid table) p = some next) (filed : Filed now node file) :
    Filed next node file := by
  cases node with
  | battle b => exact filed
  | player i => exact filed
  | agent a =>
    obtain ⟨entry, first, rfl⟩ := filed
    refine ⟨entry, ?_, rfl⟩
    rcases step_channel (.fifo (agentNumber a)) stepped with ⟨sent, -⟩ | touch
    · rw [sent, first]
    · cases touch with
      | sends message doing sent =>
        rw [show next.sent _ = _ from sent, List.head?_append]
        simp [erase, first]
      | receives _ _ _ _ _ sent => rw [show next.sent _ = _ from sent]; exact first
      | spares _ sent => rw [show next.sent _ = _ from sent]; exact first

theorem unread_kept {now next : LoggedProcesses} {p : Node} {a : Fin 7}
    (stepped : now.step (loggedProgram pid table) p = some next) (other : Node.agent a ≠ p) :
    next.taken (.fifo (agentNumber a)) = now.taken (.fifo (agentNumber a)) := by
  rcases step_channel (.fifo (agentNumber a)) stepped with ⟨-, taken, -⟩ | touch
  · exact taken
  · cases touch with
    | sends _ _ _ taken => exact taken
    | receives _ _ doing => exact absurd (fifo_reader table doing).symm other
    | spares _ _ taken => exact taken

theorem receives_entered {node : Node} {place : Local} {channel : Channel} {next : Status → Local}
    (doing : nodeProgram table node place = .receive channel next) :
    (∃ a, node = .agent a ∧ place = .readFifo ∧ channel = .fifo (agentNumber a)) ∨
      ∀ a, node = .agent a → place ≠ .readFifo := by
  cases node with
  | battle b => exact .inr nofun
  | player i => exact .inr nofun
  | agent a =>
    by_cases fifo : place = .readFifo
    · subst fifo
      simp only [nodeProgram, agentProgram, Action.receive.injEq] at doing
      exact .inl ⟨a, rfl, rfl, doing.1.symm⟩
    · exact .inr fun _ _ => fifo

theorem openLog_other {node : Node} {place : Local} (other : ∀ a, node = .agent a → place ≠ .readFifo)
    (logFd : LogFile) (status : Status) : openLog node place logFd status = logFd := by
  unfold openLog
  split
  · exact absurd rfl (other _ rfl)
  · rfl

-- The log that is open after a read.
theorem InFiles.opened {now : LoggedProcesses} {node : Node} {channel : Channel} {next : Status → Local}
    {entry : Node × Status} (files : InFiles now)
    (doing : nodeProgram table node (now.place node).place = .receive channel next)
    (found : (now.sent channel)[now.taken channel]? = some entry) :
    Filed now node (openLog node (now.place node).place (now.place node).memory entry.2) := by
  rcases receives_entered doing with ⟨a, rfl, fifo, rfl⟩ | other
  · rw [files.unread a fifo, ← List.head?_eq_getElem?] at found
    rw [fifo]
    exact ⟨entry, found, rfl⟩
  · rw [openLog_other other]
    exact files.open_ node other

theorem InFiles.step {now next : LoggedProcesses} {p : Node} (files : InFiles now)
    (stepped : now.step (loggedProgram pid table) p = some next) : InFiles next := by
  have others : ∀ node, node ≠ p → next.place node = now.place node ∧ next.log node = now.log node :=
    fun node other => ⟨step_place stepped node other, log_kept stepped other⟩
  refine ⟨?_, ?_, ?_⟩
  · intro node line member
    by_cases own : node = p
    · subst own
      cases step_recording stepped with
      | line line' rest pending place log same =>
        refine (files.logged node line ?_).kept stepped
        rw [place, log] at member
        rw [pending]
        simpa using member
      | receives channel continue' entry idle doing found place log step =>
        rw [place, log, List.mem_append] at member
        rcases member with before | noted
        · exact (files.logged node line (List.mem_append_left _ before)).kept stepped
        · obtain ⟨text, -, rfl⟩ := List.mem_map.mp noted
          exact (files.opened doing found).kept stepped
      | acts idle other quiet memory log step =>
        rw [quiet, log, List.append_nil] at member
        exact (files.logged node line (List.mem_append_left _ member)).kept stepped
    · obtain ⟨place, log⟩ := others node own
      rw [place, log] at member
      exact (files.logged node line member).kept stepped
  · intro node entered
    by_cases own : node = p
    · subst own
      cases step_recording stepped with
      | line line' rest pending place log same =>
        rw [place] at entered ⊢
        exact (files.open_ node entered).kept stepped
      | receives channel continue' entry idle doing found place log step =>
        rw [place]
        exact (files.opened doing found).kept stepped
      | acts idle other quiet memory log step =>
        rw [memory]
        refine (files.open_ node fun a same fifo => ?_).kept stepped
        subst same
        exact other (.fifo (agentNumber a)) .writeUp (by rw [fifo]; rfl)
    · obtain ⟨place, -⟩ := others node own
      rw [place] at entered ⊢
      exact (files.open_ node entered).kept stepped
  · intro a fifo
    by_cases own : Node.agent a = p
    · subst own
      -- it comes to that place no more
      cases step_recording stepped with
      | line line' rest pending place log same =>
        rw [place] at fifo
        rw [← files.unread a fifo]
        exact congrFun (congrArg Network.taken same) _
      | receives channel continue' entry idle doing found place log step =>
        exact absurd fifo (agent_enters_once (step_leads step))
      | acts idle other quiet memory log step => exact absurd fifo (agent_enters_once (step_leads step))
    · rw [unread_kept stepped own]
      exact files.unread a (by rw [← (others _ own).1]; exact fifo)

theorem inFiles_start (pid : Node → Int) (table : Table) : InFiles (logStart pid table) := by
  refine ⟨?_, ?_, fun a _ => rfl⟩
  · intro node line member
    cases node with
    | battle b => cases member
    | player i =>
      obtain rfl := List.mem_singleton.mp member
      rfl
    | agent a => cases member
  · intro node entered
    cases node with
    | battle b => rfl
    | player i => rfl
    | agent a => exact absurd rfl (entered a rfl)

theorem inFiles_run {labels : List Node} {now : LoggedProcesses}
    (ran : run (step (loggedProgram pid table)) (logStart pid table) labels = some now) : InFiles now :=
  run_invariant _ InFiles (fun _ _ _ files stepped => files.step stepped) _ now labels (inFiles_start pid table) ran

theorem parted_run {labels : List Node} {now : LoggedProcesses}
    (ran : run (step (loggedProgram pid table)) (logStart pid table) labels = some now) :
    Parted (loggedProgram pid table) IsFifo now :=
  run_invariant _ (Parted (loggedProgram pid table) IsFifo)
    (fun _ _ _ parted stepped => parted.step (parting_recorded (players_part table)) stepped) _ now labels
    ⟨by simp [logStart], by simp [logStart]⟩ ran

theorem agents_last {before later : List Node} {a : Fin 7} (split : nodes = before ++ .agent a :: later) :
    ∀ node ∈ later, ∃ other, node = .agent other := by
  intro node member
  have agents : node ∈ (List.finRange 7).map Node.agent := by
    rcases List.append_eq_append_iff.mp split with ⟨rest, -, found⟩ | ⟨rest, found, last⟩
    · rw [found]
      exact List.mem_append_right _ (List.mem_cons_of_mem _ member)
    · cases rest with
      | nil =>
        rw [List.nil_append] at last
        exact last ▸ List.mem_cons_of_mem _ member
      | cons first rest =>
        obtain ⟨rfl, -⟩ := List.cons.inj last
        have early : Node.agent a ∈ battles.map Node.battle ++ (List.finRange 8).map Node.player := by
          rw [found]
          simp
        simp at early
  obtain ⟨other, -, rfl⟩ := List.mem_map.mp agents
  exact ⟨other, rfl⟩

-- Two processes log to one file only one after the other.
theorem takes_turns (healthy : Healthy table) (flags : ∀ i, (table i).battleEndedFlag = 0)
    {labels : List Node} {now : LoggedProcesses}
    (ran : run (step (loggedProgram pid table)) (logStart pid table) labels = some now)
    {before later : List Node} {p q : Node} {file : LogFile} (split : nodes = before ++ p :: later)
    (member : q ∈ later) (pending : (now.place p).pending ≠ []) (own : Filed now p file)
    (theirs : Filed now q file) : False := by
  obtain ⟨acts, erased⟩ := logged_run ran
  have authentic := authentic_run healthy flags erased
  have parted := parted_run ran
  have distinct : (before ++ p :: later).Nodup := by
    rw [← split]
    decide +kernel
  have different : q ≠ p := by
    rintro rfl
    exact (List.nodup_cons.mp (List.nodup_append.mp distinct).2.1).1 member
  have named : ∀ a entry, (now.sent (.fifo (agentNumber a))).head? = some entry →
      entry ∈ now.sent (.fifo (agentNumber a)) ∧ entry.1 = .player entry.2.realPlayerId := fun a entry first =>
    ⟨List.mem_of_head? first, (authentic.carried _ entry (List.mem_of_head? first)).2⟩
  cases p with
  | battle b =>
    obtain rfl : file = .battle b := own
    cases q with
    | battle b' => exact different (congrArg Node.battle (LogFile.battle.inj theirs).symm)
    | player j => cases theirs
    | agent a =>
      obtain ⟨entry, -, same⟩ := theirs
      cases same
  | player i =>
    obtain rfl : file = .player i := own
    cases q with
    | battle b' => cases theirs
    | player j => exact different (congrArg Node.player (LogFile.player.inj theirs).symm)
    | agent a =>
      -- the agent stands in for the player, which has exited then
      obtain ⟨entry, first, same⟩ := theirs
      obtain ⟨sent, writer⟩ := named a entry first
      have gone := parted.halted (.fifo (agentNumber a)) entry trivial sent
      rw [writer, ← LogFile.player.inj same, recorded_halted] at gone
      exact pending gone.1
  | agent a =>
    obtain ⟨a', rfl⟩ := agents_last split q member
    obtain ⟨entry, first, rfl⟩ := own
    obtain ⟨entry', first', same⟩ := theirs
    obtain ⟨sent, writer⟩ := named a entry first
    obtain ⟨sent', writer'⟩ := named a' entry' first'
    have one := parted.single (.fifo (agentNumber a)) entry (.fifo (agentNumber a')) entry' trivial sent trivial sent'
      (by rw [writer', writer, LogFile.player.inj same])
    have number := Channel.fifo.inj one
    simp only [agentNumber] at number
    exact different (congrArg Node.agent (Fin.ext (by omega)))

theorem contents_in_order (healthy : Healthy table) (flags : ∀ i, (table i).battleEndedFlag = 0)
    {labels : List Node} {now : LoggedProcesses}
    (ran : run (step (loggedProgram pid table)) (logStart pid table) labels = some now) (file : LogFile) :
    contents pid table labels file = nodes.flatMap fun node =>
      (now.log node).filterMap fun line => if line.1 = file then some line.2 else none := by
  unfold contents
  refine writings_in_order (fun line : LogFile × Line => if line.1 = file then some line.2 else none) nodes
    (by decide +kernel) mem_nodes
    (fun now => ∃ labels, run (step (loggedProgram pid table)) (logStart pid table) labels = some now)
    ?_ ?_ ⟨[], rfl⟩ (fun _ => rfl) ran
  · rintro now p next ⟨labels, ran⟩ stepped
    exact ⟨labels ++ [p], run_snoc ran stepped⟩
  · rintro now before p later line ⟨labels, ran⟩ split pending chosen q member
    have files := inFiles_run ran
    rw [List.filterMap_eq_nil_iff]
    intro line' logged
    by_contra other
    have same : line.1 = file := by
      by_contra wrong
      simp [wrong] at chosen
    have same' : line'.1 = file := by
      by_contra wrong
      simp [wrong] at other
    have own := files.logged p line (List.mem_append_right _ (List.mem_of_head? pending))
    have theirs := files.logged q line' (List.mem_append_left _ logged)
    rw [same] at own
    rw [same'] at theirs
    exact takes_turns healthy flags ran split member (List.ne_nil_of_mem (List.mem_of_head? pending)) own theirs

/-- Whatever the schedule, the log files end up the same, and hold a part of that on the way. -/
theorem logs_independent_of_schedule (pid : Node → Int) (healthy : Healthy table)
    (flags : ∀ i, (table i).battleEndedFlag = 0) :
    ∃ files : LogFile → List Line, ∀ labels now,
      run (step (loggedProgram pid table)) (logStart pid table) labels = some now →
        (∀ file, contents pid table labels file <+: files file) ∧
        ((∀ node, now.step (loggedProgram pid table) node = none) →
          ∀ file, contents pid table labels file = files file) := by
  obtain ⟨whole, final, complete, halted, every⟩ := logged_complete pid healthy
  refine ⟨contents pid table whole, fun labels now ran => ?_⟩
  obtain ⟨rest, continued⟩ := every labels now ran
  have all := (run_append _ _ final labels rest).mpr ⟨now, ran, continued⟩
  have same : ∀ file, contents pid table (labels ++ rest) file = contents pid table whole file := fun file => by
    rw [contents_in_order healthy flags all, contents_in_order healthy flags complete]
  constructor
  · intro file
    rw [← same file, contents, contents, writings_append ran, List.filterMap_append]
    exact List.prefix_append _ _
  · intro stuck file
    obtain rfl := run_stuck continued stuck
    rw [contents_in_order healthy flags ran, contents_in_order healthy flags complete]

end SPHomework.Tournament
