import SPHomework.Tournament.Logs

set_option autoImplicit false

/-!
# The logs of the two ends of a link

Every line about a status that came has its counterpart in the log of the
process that it came from, with the two names and pids exchanged.
-/

namespace SPHomework.Tournament

open Lib Network

variable {pid : Node → Int} {table : Table}

-- The line about the same status at the other end of the pipe.
def Line.mirror : Line → Line
  | .pipeFrom self selfPid other otherPid status => .pipeTo other otherPid self selfPid status
  | .pipeTo self selfPid other otherPid status => .pipeFrom other otherPid self selfPid status
  | line => line

def Line.isFrom (other : Node) : Line → Bool
  | .pipeFrom _ _ name _ _ => name = other.name
  | _ => false

def Line.isTo (other : Node) : Line → Bool
  | .pipeTo _ _ name _ _ => name = other.name
  | _ => false

/-- What a process has logged of the statuses that came from another, and of those it sent there. -/
def loggedFrom (other : Node) (log : List (LogFile × Line)) : List Line :=
  (log.map Prod.snd).filter (Line.isFrom other)

def loggedTo (other : Node) (log : List (LogFile × Line)) : List Line :=
  (log.map Prod.snd).filter (Line.isTo other)

def heardFrom (other : Node) (entry : LogFile × Line) : Option Line :=
  if entry.2.isFrom other then some entry.2 else none

def saidTo (other : Node) (entry : LogFile × Line) : Option Line :=
  if entry.2.isTo other then some entry.2.mirror else none

theorem name_injective : ∀ node other : Node, node.name = other.name → node = other := by
  decide +kernel

-- What a child has still to send up, and a battle down to the child on that side.
def Local.dueUp : Local → List Status
  | .writeParent _ winnerStatus => [winnerStatus]
  | .writeUp currentPlayer => [currentPlayer]
  | _ => []

def Local.dueDown (side : Side) : Local → List Status
  | .writeLeft leftOutput rightOutput _ => [side.pick leftOutput rightOutput]
  | .writeRight _ rightOutput _ => if side = .right then [rightOutput] else []
  | .writeWinner result winnerStatus => if result.ending.winnerPipe = side then [winnerStatus] else []
  | _ => []

-- What a battle has read of the child on that side, and not yet logged.
def Local.owedUp (side : Side) : Local → List Status
  | .readRight leftPlayer => if side = .left then [leftPlayer] else []
  | _ => []

def Local.ending : Local → Option Ending
  | .writeLeft _ _ ending => ending
  | .writeRight _ _ ending => ending
  | place => place.result.map Result.ending

/-- All that a battle keeps of its winner is about one side. -/
def Local.Sided (place : Local) : Prop :=
  ∀ ending, place.ending = some ending → ending.winnerId = ending.winnerPipe ∧ ending.winnerPid = ending.winnerPipe

theorem battleRound_sided (b : BattleId) (l r : Status) (ending : Ending)
    (ends : (battleRound b l r).2.2 = some ending) :
    ending.winnerId = ending.winnerPipe ∧ ending.winnerPid = ending.winnerPipe := by
  unfold battleRound at ends
  dsimp only at ends
  split_ifs at ends <;> cases ends <;> exact ⟨rfl, rfl⟩

theorem sided_stays {node : Node} {place next : Local} (sided : place.Sided)
    (leads : (nodeProgram table node place).Leads next) : next.Sided := by
  cases node with
  | battle b =>
    cases place with
    | readLeft =>
      obtain ⟨message, rfl⟩ := leads
      exact nofun
    | readRight l =>
      obtain ⟨message, rfl⟩ := leads
      exact battleRound_sided b l message
    | writeLeft l r ending =>
      rw [show next = _ from leads]
      exact sided
    | writeRight l r ending =>
      rw [show next = _ from leads]
      cases ending with
      | none => exact nofun
      | some ending => exact sided
    | waitLoser result =>
      rw [show next = _ from leads]
      split_ifs <;> exact sided
    | writeWinner result st =>
      rw [show next = _ from leads]
      split_ifs <;> exact sided
    | readWinner result | readParent result =>
      obtain ⟨message, rfl⟩ := leads
      exact sided
    | printWinner _ | writeParent _ _ | waitLast _ =>
      rw [show next = _ from leads]
      exact sided
    | _ => cases leads
  | player i =>
    cases place with
    | writeFifo target st =>
      cases target with
      | none => cases leads
      | some k =>
        rw [show next = _ from leads]
        exact nofun
    | writeUp st =>
      rw [show next = _ from leads]
      exact nofun
    | readDown =>
      obtain ⟨message, rfl⟩ := leads
      unfold playerAnswer
      split_ifs <;> exact nofun
    | _ => cases leads
  | agent a =>
    cases place with
    | readFifo =>
      obtain ⟨message, rfl⟩ := leads
      exact nofun
    | writeUp st =>
      rw [show next = _ from leads]
      exact nofun
    | readDown =>
      obtain ⟨message, rfl⟩ := leads
      unfold agentAnswer
      split_ifs <;> exact nofun
    | _ => cases leads

theorem program_name (n : Fin 15) : (program n).name = .program n := by
  revert n
  decide

theorem program_parent (pid : Node → Int) {n : Fin 15} {b : BattleId} (higher : above (program n) = some b) :
    programTo pid n = lineTo pid (program n) (.battle b) ∧
      programFrom pid n = lineFrom pid (program n) (.battle b) := by
  have letter : parent n = b.char := by
    have known := parent_above n
    rw [higher] at known
    exact (Option.some.inj known).symm
  have battle : (Node.battle b).name = .battle b.char := rfl
  constructor <;>
  · funext status
    simp [programTo, programFrom, lineTo, lineFrom, parentPid, higher, program_name, letter, battle]

theorem battle_parent {b' b : BattleId} (higher : above (.battle b') = some b) : (btl b').parent = some b := by
  revert b' b
  decide

theorem child_below {b' b : BattleId} (higher : above (.battle b') = some b) (side : Side) :
    child b' side ≠ .battle b := by
  revert b' b side
  decide +kernel

@[simp] theorem lineTo_isTo (pid : Node → Int) (self node other : Node) (status : Status) :
    (lineTo pid self node status).isTo other = decide (node = other) := by
  simp only [lineTo, Line.isTo, decide_eq_decide]
  exact ⟨name_injective node other, congrArg Node.name⟩

@[simp] theorem lineFrom_isFrom (pid : Node → Int) (self node other : Node) (status : Status) :
    (lineFrom pid self node status).isFrom other = decide (node = other) := by
  simp only [lineFrom, Line.isFrom, decide_eq_decide]
  exact ⟨name_injective node other, congrArg Node.name⟩

@[simp] theorem lineFrom_isTo (pid : Node → Int) (self node other : Node) (status : Status) :
    (lineFrom pid self node status).isTo other = false := rfl

@[simp] theorem lineTo_isFrom (pid : Node → Int) (self node other : Node) (status : Status) :
    (lineTo pid self node status).isFrom other = false := rfl

@[simp] theorem fifoTo_isTo (currentId : Nat) (selfPid : Int) (agentId : Nat) (id : Fin 8) (hp : Int) (other : Node) :
    (Line.fifoTo currentId selfPid agentId id hp).isTo other = false := rfl

@[simp] theorem fifoTo_isFrom (currentId : Nat) (selfPid : Int) (agentId : Nat) (id : Fin 8) (hp : Int) (other : Node) :
    (Line.fifoTo currentId selfPid agentId id hp).isFrom other = false := rfl

@[simp] theorem fifoFrom_isTo (currentId : Nat) (selfPid : Int) (sender id : Fin 8) (hp : Int) (other : Node) :
    (Line.fifoFrom currentId selfPid sender id hp).isTo other = false := rfl

@[simp] theorem fifoFrom_isFrom (currentId : Nat) (selfPid : Int) (sender id : Fin 8) (hp : Int) (other : Node) :
    (Line.fifoFrom currentId selfPid sender id hp).isFrom other = false := rfl

@[simp] theorem lineTo_mirror (pid : Node → Int) (self node : Node) (status : Status) :
    (lineTo pid self node status).mirror = lineFrom pid node self status := rfl

theorem said_lines (node : Node) (place : Local) (logFd : LogFile) (status : Status) (other : Node) :
    (nodeRecord pid table node place logFd status).2.filterMap (saidTo other) =
      ((nodeLines pid table node place status).filter (Line.isTo other)).map Line.mirror := by
  rw [nodeRecord, List.filterMap_map, ← List.filterMap_eq_map, List.filterMap_filter]
  rfl

theorem heard_lines (node : Node) (place : Local) (logFd : LogFile) (status : Status) (other : Node) :
    (nodeRecord pid table node place logFd status).2.filterMap (heardFrom other) =
      (nodeLines pid table node place status).filter (Line.isFrom other) := by
  rw [nodeRecord, List.filterMap_map, ← List.filterMap_eq_filter]
  refine List.filterMap_congr fun line _ => ?_
  simp [heardFrom, Option.guard]

-- The lines of battle.c, when its winner is on one side in all that it keeps.
theorem winner_lines (pid : Node → Int) (b : BattleId) {result : Result}
    (sided : result.ending.winnerId = result.ending.winnerPipe ∧ result.ending.winnerPid = result.ending.winnerPipe)
    (status : Status) :
    battleLines pid b (.readWinner result) status =
        lineFrom pid (.battle b) (child b result.ending.winnerPipe) status ::
          ((btl b).parent.map fun up => lineTo pid (.battle b) (.battle up) status).toList ∧
      battleLines pid b (.readParent result) status =
        ((btl b).parent.map fun up => lineFrom pid (.battle b) (.battle up) status).toList ++
          [lineTo pid (.battle b) (child b result.ending.winnerPipe) status] := by
  simp only [battleLines, sided.1, sided.2]
  exact ⟨rfl, rfl⟩

theorem parent_ne {b up : BattleId} (higher : (btl b).parent = some up) (side : Side) :
    Node.battle up ≠ child b side := by
  revert b up side
  decide +kernel

theorem parent_filter {b : BattleId} (line : BattleId → Line) (test : Node → Line → Bool)
    (tests : ∀ up other, test other (line up) = decide (Node.battle up = other)) (side : Side) :
    ((btl b).parent.map line).toList.filter (test (child b side)) = [] := by
  cases higher : (btl b).parent with
  | none => rfl
  | some up => simp [tests, parent_ne higher side]

theorem parent_filter_never {b : BattleId} (line : BattleId → Line) (test : Node → Line → Bool)
    (tests : ∀ up other, test other (line up) = false) (side : Side) :
    ((btl b).parent.map line).toList.filter (test (child b side)) = [] := by
  cases (btl b).parent <;> simp [tests]

theorem program_player (i : Fin 8) : program (playerNumber i) = .player i := by
  revert i
  decide

theorem program_agent (a : Fin 7) : program (agentProgramNumber a) = .agent a := by
  revert a
  decide

-- The lines of player.c about its pipes are about the battle above it.
theorem player_lines (pid : Node → Int) {i : Fin 8} {b : BattleId} (higher : above (.player i) = some b) :
    programTo pid (playerNumber i) = lineTo pid (.player i) (.battle b) ∧
      programFrom pid (playerNumber i) = lineFrom pid (.player i) (.battle b) := by
  rw [← program_player i] at higher ⊢
  exact program_parent pid higher

theorem agent_lines (pid : Node → Int) {a : Fin 7} {b : BattleId} (higher : above (.agent a) = some b) :
    programTo pid (agentProgramNumber a) = lineTo pid (.agent a) (.battle b) ∧
      programFrom pid (agentProgramNumber a) = lineFrom pid (.agent a) (.battle b) := by
  rw [← program_agent a] at higher ⊢
  exact program_parent pid higher

theorem player_said (pid : Node → Int) {i : Fin 8} {b : BattleId} (higher : above (.player i) = some b)
    (status : Status) :
    (((playerLines pid table i .readDown status).filter (Line.isTo (.battle b))).map Line.mirror) =
      (playerAnswer table i status).dueUp.map (lineFrom pid (.battle b) (.player i)) := by
  obtain ⟨sends, comes⟩ := player_lines pid higher
  simp only [playerLines, sends, comes]
  unfold playerAnswer
  cases agentId status.currentBattleId <;> split_ifs <;> simp [Local.dueUp]

theorem agent_said (pid : Node → Int) {a : Fin 7} {b : BattleId} (higher : above (.agent a) = some b)
    (status : Status) :
    (((agentLines pid table a .readDown status).filter (Line.isTo (.battle b))).map Line.mirror) =
      (agentAnswer table status).dueUp.map (lineFrom pid (.battle b) (.agent a)) := by
  obtain ⟨sends, comes⟩ := agent_lines pid higher
  simp only [agentLines, sends, comes]
  unfold agentAnswer
  split_ifs <;> simp [Local.dueUp]

theorem child_announces {node : Node} {b : BattleId} (higher : above node = some b) :
    Announces (nodeProgram table) (nodeRecord pid table) Local.Sided node (.up node)
      (lineFrom pid (.battle b) node) (saidTo (.battle b)) Local.dueUp where
  stays := sided_stays
  writer doing := (sends_up doing).1
  sends := by
    intro place message next _ doing
    cases node with
    | battle b' =>
      cases place <;>
        simp only [nodeProgram, battleProgram, reduceCtorEq, Action.send.injEq, false_and] at doing
      obtain ⟨-, rfl, rfl⟩ := doing
      rfl
    | player i =>
      cases place with
      | writeFifo target st => cases target <;> simp [nodeProgram, playerProgram] at doing
      | writeUp st =>
        simp only [nodeProgram, playerProgram, pipeProgram, Action.send.injEq] at doing
        obtain ⟨-, rfl, rfl⟩ := doing
        rfl
      | _ => simp [nodeProgram, playerProgram, pipeProgram] at doing
    | agent a =>
      cases place with
      | writeUp st =>
        simp only [nodeProgram, agentProgram, pipeProgram, Action.send.injEq] at doing
        obtain ⟨-, rfl, rfl⟩ := doing
        rfl
      | _ => simp [nodeProgram, agentProgram, pipeProgram] at doing
  takes := by
    intro place other next sided doing
    simp only [said_lines]
    cases node with
    | battle b' =>
      cases place <;>
        simp only [nodeProgram, battleProgram, reduceCtorEq, Action.receive.injEq] at doing
      case readLeft =>
        obtain ⟨-, rfl⟩ := doing
        exact ⟨rfl, fun _ _ => rfl⟩
      case readRight l =>
        obtain ⟨-, rfl⟩ := doing
        exact ⟨rfl, fun _ _ => by simp [nodeLines, battleLines, child_below higher, Local.dueUp]⟩
      case readWinner result =>
        obtain ⟨-, rfl⟩ := doing
        refine ⟨rfl, fun _ status => ?_⟩
        rw [nodeLines, (winner_lines pid b' (sided _ rfl) status).1, battle_parent higher]
        simp [Local.dueUp]
      case readParent result =>
        obtain ⟨-, rfl⟩ := doing
        refine ⟨rfl, fun _ status => ?_⟩
        rw [nodeLines, (winner_lines pid b' (sided _ rfl) status).2, battle_parent higher]
        simp [Local.dueUp, child_below higher]
    | player i =>
      cases place with
      | writeFifo target st => cases target <;> simp [nodeProgram, playerProgram] at doing
      | readDown =>
        simp only [nodeProgram, playerProgram, pipeProgram, Action.receive.injEq] at doing
        obtain ⟨-, rfl⟩ := doing
        exact ⟨rfl, fun _ status => player_said pid higher status⟩
      | _ => simp [nodeProgram, playerProgram, pipeProgram] at doing
    | agent a =>
      cases place with
      | readFifo =>
        simp only [nodeProgram, agentProgram, Action.receive.injEq] at doing
        obtain ⟨-, rfl⟩ := doing
        refine ⟨rfl, fun _ status => ?_⟩
        rw [nodeLines, agentLines, (agent_lines pid higher).1, List.filter_cons_of_neg (by simp)]
        simp [Local.dueUp]
      | readDown =>
        simp only [nodeProgram, agentProgram, pipeProgram, Action.receive.injEq] at doing
        obtain ⟨-, rfl⟩ := doing
        exact ⟨rfl, fun _ status => agent_said pid higher status⟩
      | _ => simp [nodeProgram, agentProgram, pipeProgram] at doing
  keeps := by
    intro place next _ leads silent idle
    cases node with
    | battle b' =>
      cases place with
      | writeRight l r ending =>
        rw [show next = _ from leads]
        cases ending <;> rfl
      | waitLoser result =>
        rw [show next = _ from leads]
        split_ifs <;> rfl
      | writeWinner result st =>
        rw [show next = _ from leads]
        split_ifs <;> rfl
      | writeParent result st => exact absurd rfl (silent _ _)
      | readLeft | readRight _ | readWinner _ | readParent _ => exact absurd rfl (idle _ _)
      | writeLeft _ _ _ | printWinner _ | waitLast _ =>
        rw [show next = _ from leads]
        rfl
      | _ => cases leads
    | player i =>
      cases place with
      | writeFifo target st =>
        cases target with
        | none => cases leads
        | some k =>
          rw [show next = _ from leads]
          rfl
      | writeUp st => exact absurd rfl (silent _ _)
      | readDown => exact absurd rfl (idle _ _)
      | _ => cases leads
    | agent a =>
      cases place with
      | writeUp st => exact absurd rfl (silent _ _)
      | readFifo | readDown => exact absurd rfl (idle _ _)
      | _ => cases leads

theorem battle_announces (b : BattleId) (side : Side) :
    Announces (nodeProgram table) (nodeRecord pid table) Local.Sided (.battle b) (.down (child b side))
      (lineFrom pid (child b side) (.battle b)) (saidTo (child b side)) (Local.dueDown side) where
  stays := sided_stays
  writer doing := (sends_down doing).1
  sends := by
    intro place message next _ doing
    cases place <;>
      simp only [nodeProgram, battleProgram, reduceCtorEq, Action.send.injEq, Channel.down.injEq, false_and] at doing
    case writeLeft l r ending =>
      obtain ⟨same, rfl, rfl⟩ := doing
      obtain ⟨-, rfl⟩ := child_injective same
      rfl
    case writeRight l r last ending =>
      obtain ⟨same, rfl, rfl⟩ := doing
      obtain ⟨-, rfl⟩ := child_injective same
      cases last <;> rfl
    case writeWinner result st =>
      obtain ⟨same, rfl, rfl⟩ := doing
      obtain ⟨-, rfl⟩ := child_injective same
      split_ifs <;> simp [Local.dueDown]
  takes := by
    intro place other next sided doing
    simp only [said_lines]
    cases place <;>
      simp only [nodeProgram, battleProgram, reduceCtorEq, Action.receive.injEq] at doing
    case readLeft =>
      obtain ⟨-, rfl⟩ := doing
      exact ⟨rfl, fun _ _ => rfl⟩
    case readRight l =>
      obtain ⟨-, rfl⟩ := doing
      refine ⟨rfl, fun _ status => ?_⟩
      have apart : child b .left ≠ child b .right := sides_ne b .left
      cases side <;> simp [nodeLines, battleLines, Local.dueDown, Side.pick, apart, Ne.symm apart]
    case readWinner result =>
      obtain ⟨-, rfl⟩ := doing
      refine ⟨rfl, fun _ status => ?_⟩
      rw [nodeLines, (winner_lines pid b (sided _ rfl) status).1, List.filter_cons_of_neg (by simp),
        parent_filter _ Line.isTo (by simp)]
      rfl
    case readParent result =>
      obtain ⟨-, rfl⟩ := doing
      refine ⟨rfl, fun _ status => ?_⟩
      rw [nodeLines, (winner_lines pid b (sided _ rfl) status).2, List.filter_append,
        parent_filter_never _ Line.isTo (by simp)]
      by_cases winner : result.ending.winnerPipe = side
      · simp [Local.dueDown, winner]
      · have apart : child b result.ending.winnerPipe ≠ child b side := fun same =>
          winner (child_injective same).2
        simp [Local.dueDown, winner, apart]
  keeps := by
    intro place next _ leads silent idle
    cases place with
    | writeLeft l r ending =>
      rw [show next = _ from leads]
      cases side with
      | left => exact absurd rfl (silent _ _)
      | right => rfl
    | writeRight l r ending =>
      rw [show next = _ from leads]
      cases side with
      | left => cases ending <;> rfl
      | right => exact absurd rfl (silent _ _)
    | waitLoser result =>
      rw [show next = _ from leads]
      split_ifs <;> rfl
    | writeWinner result st =>
      rw [show next = _ from leads]
      by_cases winner : result.ending.winnerPipe = side
      · subst winner
        exact absurd rfl (silent _ _)
      · split_ifs <;> simp [Local.dueDown, winner]
    | readLeft | readRight _ | readWinner _ | readParent _ => exact absurd rfl (idle _ _)
    | printWinner _ | writeParent _ _ | waitLast _ =>
      rw [show next = _ from leads]
      rfl
    | _ => cases leads

theorem player_heard (pid : Node → Int) {i : Fin 8} {b : BattleId} (higher : above (.player i) = some b)
    (status : Status) :
    (playerLines pid table i .readDown status).filter (Line.isFrom (.battle b)) =
      [lineFrom pid (.player i) (.battle b) status] := by
  obtain ⟨sends, comes⟩ := player_lines pid higher
  simp only [playerLines, sends, comes]
  unfold playerAnswer
  cases agentId status.currentBattleId <;> split_ifs <;> simp

theorem agent_heard (pid : Node → Int) {a : Fin 7} {b : BattleId} (higher : above (.agent a) = some b)
    (status : Status) :
    (agentLines pid table a .readDown status).filter (Line.isFrom (.battle b)) =
      [lineFrom pid (.agent a) (.battle b) status] := by
  obtain ⟨sends, comes⟩ := agent_lines pid higher
  simp only [agentLines, sends, comes]
  unfold agentAnswer
  split_ifs <;> simp

theorem child_repeats {node : Node} {b : BattleId} (higher : above node = some b) :
    Repeats (nodeProgram table) (nodeRecord pid table) Local.Sided node (.down node)
      (lineFrom pid node (.battle b)) (heardFrom (.battle b)) fun _ => [] where
  stays := sided_stays
  reader doing := (receives_down doing).1
  takes := by
    intro place next sided doing _ status
    simp only [heard_lines]
    cases node with
    | battle b' =>
      cases place <;>
        simp only [nodeProgram, battleProgram, reduceCtorEq, Action.receive.injEq, false_and] at doing
      case readParent result =>
        rw [nodeLines, (winner_lines pid b' (sided _ rfl) status).2, battle_parent higher]
        simp
    | player i =>
      cases place with
      | writeFifo target st => cases target <;> simp [nodeProgram, playerProgram] at doing
      | readDown => simp [nodeLines, player_heard pid higher]
      | _ => simp [nodeProgram, playerProgram, pipeProgram] at doing
    | agent a =>
      cases place with
      | readDown => simp [nodeLines, agent_heard pid higher]
      | _ => simp [nodeProgram, agentProgram, pipeProgram] at doing
  others := by
    intro place other next sided doing different _ status
    simp only [heard_lines]
    cases node with
    | battle b' =>
      cases place <;>
        simp only [nodeProgram, battleProgram, reduceCtorEq, Action.receive.injEq] at doing
      case readLeft => rfl
      case readRight l => simp [nodeLines, battleLines, child_below higher]
      case readWinner result =>
        rw [nodeLines, (winner_lines pid b' (sided _ rfl) status).1, battle_parent higher]
        simp [child_below higher]
      case readParent result => exact absurd doing.1.symm different
    | player i =>
      cases place with
      | writeFifo target st => cases target <;> simp [nodeProgram, playerProgram] at doing
      | readDown =>
        simp only [nodeProgram, playerProgram, pipeProgram, Action.receive.injEq] at doing
        exact absurd doing.1.symm different
      | _ => simp [nodeProgram, playerProgram, pipeProgram] at doing
    | agent a =>
      cases place with
      | readFifo => simp [nodeLines, agentLines, (agent_lines pid higher).1]
      | readDown =>
        simp only [nodeProgram, agentProgram, pipeProgram, Action.receive.injEq] at doing
        exact absurd doing.1.symm different
      | _ => simp [nodeProgram, agentProgram, pipeProgram] at doing
  keeps _ _ _ := rfl

theorem battle_repeats (b : BattleId) (side : Side) :
    Repeats (nodeProgram table) (nodeRecord pid table) Local.Sided (.battle b) (.up (child b side))
      (lineFrom pid (.battle b) (child b side)) (heardFrom (child b side)) (Local.owedUp side) where
  stays := sided_stays
  reader doing := (receives_up doing).1
  takes := by
    intro place next sided doing _ status
    simp only [heard_lines]
    have apart : child b .left ≠ child b .right := sides_ne b .left
    cases place <;>
      simp only [nodeProgram, battleProgram, reduceCtorEq, Action.receive.injEq, Channel.up.injEq, false_and] at doing
    case readLeft =>
      obtain ⟨same, rfl⟩ := doing
      obtain ⟨-, rfl⟩ := child_injective same
      rfl
    case readRight l =>
      obtain ⟨same, rfl⟩ := doing
      obtain ⟨-, rfl⟩ := child_injective same
      simp [nodeLines, battleLines, Local.owedUp, apart]
    case readWinner result =>
      obtain ⟨same, rfl⟩ := doing
      obtain ⟨-, rfl⟩ := child_injective same
      rw [nodeLines, (winner_lines pid b (sided _ rfl) status).1, List.filter_cons_of_pos (by simp),
        parent_filter_never _ Line.isFrom (by simp)]
      rfl
  others := by
    intro place other next sided doing different _ status
    simp only [heard_lines]
    have apart : child b .left ≠ child b .right := sides_ne b .left
    cases place <;>
      simp only [nodeProgram, battleProgram, reduceCtorEq, Action.receive.injEq] at doing
    case readLeft =>
      obtain ⟨rfl, rfl⟩ := doing
      cases side with
      | left => exact absurd rfl different
      | right => rfl
    case readRight l =>
      obtain ⟨rfl, rfl⟩ := doing
      cases side with
      | left => simp [nodeLines, battleLines, Local.owedUp, apart.symm]
      | right => exact absurd rfl different
    case readWinner result =>
      obtain ⟨rfl, rfl⟩ := doing
      have elsewhere : child b result.ending.winnerPipe ≠ child b side := fun same => different (congrArg Channel.up same)
      rw [nodeLines, (winner_lines pid b (sided _ rfl) status).1, List.filter_cons_of_neg (by simp [elsewhere]),
        parent_filter_never _ Line.isFrom (by simp)]
      rfl
    case readParent result =>
      obtain ⟨-, rfl⟩ := doing
      rw [nodeLines, (winner_lines pid b (sided _ rfl) status).2, List.filter_append,
        parent_filter _ Line.isFrom (by simp)]
      simp [Local.owedUp]
  keeps := by
    intro place next _ leads idle
    cases place with
    | writeRight l r ending =>
      rw [show next = _ from leads]
      cases ending <;> rfl
    | waitLoser result =>
      rw [show next = _ from leads]
      split_ifs <;> rfl
    | writeWinner result st =>
      rw [show next = _ from leads]
      split_ifs <;> rfl
    | readLeft | readRight _ | readWinner _ | readParent _ => exact absurd rfl (idle _ _)
    | writeLeft _ _ _ | printWinner _ | writeParent _ _ | waitLast _ =>
      rw [show next = _ from leads]
      rfl
    | _ => cases leads

theorem heard_log (other : Node) (log : List (LogFile × Line)) :
    log.filterMap (heardFrom other) = loggedFrom other log := by
  rw [loggedFrom, ← List.filterMap_eq_filter, List.filterMap_map]
  refine List.filterMap_congr fun line _ => ?_
  simp [heardFrom, Option.guard]

theorem said_log (other : Node) (log : List (LogFile × Line)) :
    log.filterMap (saidTo other) = (loggedTo other log).map Line.mirror := by
  rw [loggedTo, ← List.filterMap_eq_map, List.filterMap_filter, List.filterMap_map]
  rfl

theorem sided_start (pid : Node → Int) (table : Table) (node : Node) :
    ((logStart pid table).place node).place.Sided := by
  cases node <;> exact nofun

theorem child_announced {labels : List Node} {now : LoggedProcesses}
    (ran : run (step (loggedProgram pid table)) (logStart pid table) labels = some now) {node : Node} {b : BattleId}
    (higher : above node = some b) :
    Announced Local.Sided node (.up node) (lineFrom pid (.battle b) node) (saidTo (.battle b)) Local.dueUp now := by
  refine run_invariant _ (Announced Local.Sided node (.up node) (lineFrom pid (.battle b) node) (saidTo (.battle b))
    Local.dueUp) (fun _ _ _ announced stepped => announced.step (child_announces higher) stepped) _ now labels
    ⟨sided_start pid table node, ?_, ?_⟩ ran
  · cases node with
    | battle b' => rfl
    | player i => simp [logStart, log, seen, saidTo, (player_lines pid higher).1, Local.dueUp]
    | agent a => rfl
  · cases node with
    | battle b' => exact Nat.le_refl _
    | player i => exact List.length_filterMap_le _ _
    | agent a => exact Nat.le_refl _

theorem battle_announced {labels : List Node} {now : LoggedProcesses}
    (ran : run (step (loggedProgram pid table)) (logStart pid table) labels = some now) (b : BattleId) (side : Side) :
    Announced Local.Sided (.battle b) (.down (child b side)) (lineFrom pid (child b side) (.battle b))
      (saidTo (child b side)) (Local.dueDown side) now :=
  run_invariant _ (Announced Local.Sided (.battle b) (.down (child b side)) (lineFrom pid (child b side) (.battle b))
    (saidTo (child b side)) (Local.dueDown side))
    (fun _ _ _ announced stepped => announced.step (battle_announces b side) stepped) _ now labels
    ⟨sided_start pid table _, rfl, Nat.le_refl _⟩ ran

theorem child_repeated {labels : List Node} {now : LoggedProcesses}
    (ran : run (step (loggedProgram pid table)) (logStart pid table) labels = some now) {node : Node} {b : BattleId}
    (higher : above node = some b) :
    Repeated Local.Sided node (.down node) (lineFrom pid node (.battle b)) (heardFrom (.battle b)) (fun _ => []) now := by
  refine run_invariant _ (Repeated Local.Sided node (.down node) (lineFrom pid node (.battle b)) (heardFrom (.battle b))
    fun _ => []) (fun _ _ _ repeated stepped => repeated.step (child_repeats higher) stepped) _ now labels
    ⟨sided_start pid table node, Nat.le_refl _, ?_⟩ ran
  cases node with
  | battle b' => rfl
  | player i => simp [logStart, log, seen, heardFrom, (player_lines pid higher).1]
  | agent a => rfl

theorem battle_repeated {labels : List Node} {now : LoggedProcesses}
    (ran : run (step (loggedProgram pid table)) (logStart pid table) labels = some now) (b : BattleId) (side : Side) :
    Repeated Local.Sided (.battle b) (.up (child b side)) (lineFrom pid (.battle b) (child b side))
      (heardFrom (child b side)) (Local.owedUp side) now :=
  run_invariant _ (Repeated Local.Sided (.battle b) (.up (child b side)) (lineFrom pid (.battle b) (child b side))
    (heardFrom (child b side)) (Local.owedUp side))
    (fun _ _ _ repeated stepped => repeated.step (battle_repeats b side) stepped) _ now labels
    ⟨sided_start pid table _, Nat.le_refl _, rfl⟩ ran

-- A process that has exited has nothing left to send, and owes its log nothing.
theorem exited_quiet {now : LoggedProcesses} {node : Node}
    (halted : now.halted (loggedProgram pid table) node = true) (side : Side) :
    (now.place node).pending = [] ∧ (now.place node).place.dueUp = [] ∧ (now.place node).place.dueDown side = [] ∧
      (now.place node).place.owedUp side = [] ∧ (now.place node).place.waiting = false ∧
      (now.place node).place.owes side = false := by
  obtain ⟨written, gone⟩ := (recorded_halted now node).mp halted
  refine ⟨written, ?_⟩
  rw [Network.halted, erase] at gone
  cases node with
  | battle b =>
    cases here : (now.place (.battle b)).place <;>
      simp [here, nodeProgram, battleProgram, Action.isHalt] at gone
    exact ⟨rfl, rfl, rfl, rfl, rfl⟩
  | player i =>
    cases here : (now.place (.player i)).place with
    | writeFifo target st => cases target <;> simp [here, nodeProgram, playerProgram, Action.isHalt] at gone
    | exited => exact ⟨rfl, rfl, rfl, rfl, rfl⟩
    | _ => simp [here, nodeProgram, playerProgram, pipeProgram, Action.isHalt] at gone
  | agent a =>
    cases here : (now.place (.agent a)).place with
    | exited => exact ⟨rfl, rfl, rfl, rfl, rfl⟩
    | _ => simp [here, nodeProgram, agentProgram, pipeProgram, Action.isHalt] at gone

/-- In every run, each end of a link has logged of the statuses from the other what the other has
logged of those it sent, or a part of it; and all of it once both have exited. -/
theorem logs_mirror {labels : List Node} {now : LoggedProcesses}
    (ran : run (step (loggedProgram pid table)) (logStart pid table) labels = some now) (b : BattleId) (side : Side) :
    let up := (loggedTo (.battle b) (now.log (child b side))).map Line.mirror
    let down := (loggedTo (child b side) (now.log (.battle b))).map Line.mirror
    loggedFrom (child b side) (now.log (.battle b)) <+: up ∧
    loggedFrom (.battle b) (now.log (child b side)) <+: down ∧
    (now.halted (loggedProgram pid table) (.battle b) = true →
      now.halted (loggedProgram pid table) (child b side) = true →
        loggedFrom (child b side) (now.log (.battle b)) = up ∧
        loggedFrom (.battle b) (now.log (child b side)) = down) := by
  have higher := above_child b side
  have asks := child_announced ran higher
  have answers := battle_announced ran b side
  have takes := battle_repeated ran b side
  have hears := child_repeated ran higher
  simp only [← said_log, ← heard_log]
  refine ⟨asks.mirrored takes, answers.mirrored hears, fun parentDone childDone => ?_⟩
  obtain ⟨written, -, down, owed, -, owes⟩ := exited_quiet parentDone side
  obtain ⟨written', up, -, -, waiting, -⟩ := exited_quiet childDone side
  -- all that was sent has been taken
  obtain ⟨acts, erased⟩ := logged_run ran
  obtain ⟨asked, answered, sound⟩ := (child_link table b side).run (start_paced table b side) erased
  have waiting' : (now.erase.place (child b side)).waiting = false := waiting
  have owes' : (now.erase.place (.battle b)).owes side = false := owes
  rw [waiting', Bool.toNat_false] at asked
  rw [owes', Bool.toNat_false] at answered
  have upward := sound (.up (child b side))
  have downward := sound (.down (child b side))
  simp only [erase] at asked answered upward downward
  constructor
  · rw [takes.done written owed (by omega), asks.done written' up]
  · rw [hears.done written' rfl (by omega), answers.done written down]

theorem logs_mirror_sample : ∃ labels final,
    run (step (loggedProgram (fun _ => 1) sample)) (logStart (fun _ => 1) sample) labels = some final ∧
      loggedFrom (child .A .left) (final.log (.battle .A)) =
        (loggedTo (.battle .A) (final.log (child .A .left))).map Line.mirror := by
  obtain ⟨labels, final, ran, halted, -⟩ := logged_complete (fun _ => 1) sample_healthy
  exact ⟨labels, final, ran, ((logs_mirror ran .A .left).2.2 (halted _) (halted _)).1⟩

end SPHomework.Tournament
