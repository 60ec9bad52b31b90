import SPHomework.Lib.Group
import SPHomework.Tournament.Fight

set_option autoImplicit false

/-!
# The processes

`battle.c` and `player.c` as programs of a network: one pipe each way between a
battle and each of its children, and a fifo for each agent. All processes are
there from the start; one that is forked late just has not moved yet.
-/

namespace SPHomework.Tournament

open Lib

inductive Channel where
  | up (node : Node)
  | down (node : Node)
  | fifo (number : Nat)
  deriving DecidableEq

/-- Where a process is, with the variables it still needs. -/
inductive Local where
  -- battle.c, battle mode
  | readLeft
  | readRight (leftPlayer : Status)
  | writeLeft (leftOutput rightOutput : Status) (ending : Option Ending)
  | writeRight (leftOutput rightOutput : Status) (ending : Option Ending)
  | waitLoser (result : Result)
  -- passing mode
  | printWinner (result : Result)
  | readWinner (result : Result)
  | writeParent (result : Result) (winnerStatus : Status)
  | readParent (result : Result)
  | writeWinner (result : Result) (winnerStatus : Status)
  | waitLast (result : Result)
  | returned (result : Result)
  -- player.c
  | readFifo
  | writeUp (currentPlayer : Status)
  | readDown
  | writeFifo (agentId : Option Nat) (currentPlayer : Status)
  | exited
  deriving DecidableEq

abbrev Step := Action Node Channel Status (Fin 8) Local

def afterRound (leftOutput rightOutput : Status) : Option Ending → Local
  | none => .readLeft
  | some ending => .waitLoser ⟨leftOutput, rightOutput, ending⟩

def battleProgram (b : BattleId) : Local → Step
  | .readLeft => .receive (.up (child b .left)) .readRight
  | .readRight leftPlayer => .receive (.up (child b .right)) fun rightPlayer =>
    let outputs := battleRound b leftPlayer rightPlayer
    .writeLeft outputs.1 outputs.2.1 outputs.2.2
  | .writeLeft leftOutput rightOutput ending =>
    .send (.down (child b .left)) leftOutput (.writeRight leftOutput rightOutput ending)
  | .writeRight leftOutput rightOutput ending =>
    .send (.down (child b .right)) rightOutput (afterRound leftOutput rightOutput ending)
  | .waitLoser result =>
    .join (child b result.ending.waited)
      (if (btl b).parent = none then .printWinner result else .readWinner result)
  | .printWinner result => .print result.ending.winner (.waitLast result)
  | .readWinner result => .receive (.up (child b result.ending.winnerPipe)) (.writeParent result)
  | .writeParent result winnerStatus => .send (.up (.battle b)) winnerStatus (.readParent result)
  | .readParent result => .receive (.down (.battle b)) (.writeWinner result)
  | .writeWinner result winnerStatus =>
    .send (.down (child b result.ending.winnerPipe)) winnerStatus
      (if winnerStatus.battleEndedFlag = 1 ∧ winnerStatus.hp ≤ 0 then .waitLast result
      else if winnerStatus.battleEndedFlag = 1 ∧ winnerStatus.currentBattleId = 'A' then .waitLast result
      else .readWinner result)
  -- `wait(NULL)`: one child is left that was not waited for
  | .waitLast result => .join (child b result.ending.waited.other) (.returned result)
  | .returned _ => .halt
  | _ => .wrong

-- The body of the real player's loop.
def playerAnswer (table : Table) (currentId : Fin 8) (currentPlayer : Status) : Local :=
  if currentPlayer.battleEndedFlag = 1 then
    if 0 < currentPlayer.hp then
      if currentPlayer.currentBattleId ≠ 'A' then
        .writeUp { currentPlayer with
          hp := (currentPlayer.hp + (playerStatus table currentId).hp).tdiv 2, battleEndedFlag := 0 }
      else .exited
    else if currentPlayer.currentBattleId = 'A' then .exited
    else .writeFifo (agentId currentPlayer.currentBattleId)
      { currentPlayer with hp := (playerStatus table currentId).hp, battleEndedFlag := 0 }
  else .writeUp currentPlayer

-- The body of the agent's loop.
def agentAnswer (table : Table) (currentPlayer : Status) : Local :=
  if currentPlayer.battleEndedFlag = 1 then
    if currentPlayer.hp ≤ 0 ∨ currentPlayer.currentBattleId = 'A' then .exited
    else .writeUp { currentPlayer with
      hp := (currentPlayer.hp + (playerStatus table currentPlayer.realPlayerId).hp).tdiv 2
      battleEndedFlag := 0 }
  else .writeUp currentPlayer

-- What both branches of `player.c` share, given the pipes and the body of the loop.
def pipeProgram (node : Node) (answer : Status → Local) : Local → Step
  | .writeUp currentPlayer => .send (.up node) currentPlayer .readDown
  | .readDown => .receive (.down node) answer
  | .exited => .halt
  | _ => .wrong

def playerProgram (table : Table) (currentId : Fin 8) : Local → Step
  | .writeFifo (some agentId) currentPlayer => .send (.fifo agentId) currentPlayer .exited
  -- `agentId` is not assigned
  | .writeFifo none _ => .wrong
  | place => pipeProgram (.player currentId) (playerAnswer table currentId) place

def agentProgram (table : Table) (id : Fin 7) : Local → Step
  | .readFifo => .receive (.fifo (agentNumber id)) .writeUp
  | place => pipeProgram (.agent id) (agentAnswer table) place

def nodeProgram (table : Table) : Node → Local → Step
  | .battle b => battleProgram b
  | .player currentId => playerProgram table currentId
  | .agent id => agentProgram table id

abbrev Processes := Network Node Channel Status (Fin 8) Local

def start (table : Table) : Processes where
  place
    | .battle _ => .readLeft
    | .player currentId => .writeUp (playerStatus table currentId)
    | .agent _ => .readFifo
  sent _ := []
  taken _ := 0
  output _ := []

def reader : Channel → Option Node
  | .up node => (above node).map .battle
  | .down node => some node
  | .fifo number => if inside : 8 ≤ number ∧ number < 15 then some (.agent ⟨number - 8, by omega⟩) else none

def writer : Channel → Option Node
  | .up node => some node
  | .down node => (above node).map .battle
  | .fifo _ => none

def IsFifo : Channel → Prop
  | .fifo _ => True
  | _ => False

theorem reads_reader (table : Table) {node : Node} {place : Local} {channel : Channel}
    {next : Status → Local} (doing : nodeProgram table node place = .receive channel next) :
    reader channel = some node := by
  cases node with
  | battle b =>
    cases place <;> simp only [nodeProgram, battleProgram, reduceCtorEq, Action.receive.injEq] at doing
    all_goals
      obtain ⟨rfl, -⟩ := doing
      simp [reader, above_child]
  | player i =>
    cases place with
    | writeFifo target st => cases target <;> simp [nodeProgram, playerProgram] at doing
    | readDown =>
      simp only [nodeProgram, playerProgram, pipeProgram, Action.receive.injEq] at doing
      obtain ⟨rfl, -⟩ := doing
      rfl
    | _ => simp [nodeProgram, playerProgram, pipeProgram] at doing
  | agent a =>
    cases place with
    | readFifo =>
      simp only [nodeProgram, agentProgram, Action.receive.injEq] at doing
      obtain ⟨rfl, -⟩ := doing
      have inside := a.isLt
      simp only [reader, agentNumber, Nat.le_add_right, true_and, Nat.add_sub_cancel_left]
      rw [dif_pos (by omega)]
    | readDown =>
      simp only [nodeProgram, agentProgram, pipeProgram, Action.receive.injEq] at doing
      obtain ⟨rfl, -⟩ := doing
      rfl
    | _ => simp [nodeProgram, agentProgram, pipeProgram] at doing

theorem sends_writer (table : Table) {node : Node} {place : Local} {channel : Channel} {message : Status}
    {next : Local} (doing : nodeProgram table node place = .send channel message next) :
    writer channel = some node ∨ IsFifo channel ∧ ∃ i, node = .player i := by
  cases node with
  | battle b =>
    cases place <;> simp only [nodeProgram, battleProgram, reduceCtorEq, Action.send.injEq] at doing
    all_goals
      obtain ⟨rfl, -⟩ := doing
      simp [writer, above_child]
  | player i =>
    cases place with
    | writeFifo target st =>
      cases target with
      | none => simp [nodeProgram, playerProgram] at doing
      | some k =>
        simp only [nodeProgram, playerProgram, Action.send.injEq] at doing
        obtain ⟨rfl, -⟩ := doing
        exact .inr ⟨trivial, i, rfl⟩
    | writeUp st =>
      simp only [nodeProgram, playerProgram, pipeProgram, Action.send.injEq] at doing
      obtain ⟨rfl, -⟩ := doing
      exact .inl rfl
    | _ => simp [nodeProgram, playerProgram, pipeProgram] at doing
  | agent a =>
    cases place with
    | writeUp st =>
      simp only [nodeProgram, agentProgram, pipeProgram, Action.send.injEq] at doing
      obtain ⟨rfl, -⟩ := doing
      exact .inl rfl
    | _ => simp [nodeProgram, agentProgram, pipeProgram] at doing

theorem nodeProgram_wired (table : Table) : Network.Wired (nodeProgram table) IsFifo where
  reader doing doing' := by
    have one := reads_reader table doing
    have other := reads_reader table doing'
    exact Option.some.inj (one.symm.trans other)
  writer ordinary doing doing' := by
    have one := (sends_writer table doing).resolve_right fun fifo => ordinary fifo.1
    have other := (sends_writer table doing').resolve_right fun fifo => ordinary fifo.1
    exact Option.some.inj (one.symm.trans other)

def Local.result : Local → Option Result
  | .waitLoser result => some result
  | .printWinner result => some result
  | .readWinner result => some result
  | .writeParent result _ => some result
  | .readParent result => some result
  | .writeWinner result _ => some result
  | .waitLast result => some result
  | .returned result => some result
  | _ => none

theorem step_result {table : Table} {now next : Processes} {b : BattleId} {result : Result}
    (taken : now.step (nodeProgram table) (.battle b) = some next)
    (known : (now.place (.battle b)).result = some result) :
    (next.place (.battle b)).result = some result := by
  obtain ⟨place, can, rfl⟩ := Network.step_eq.mp taken
  simp only [Network.move, Function.update_self]
  cases here : now.place (.battle b) <;>
    simp only [here, Local.result, reduceCtorEq, Option.some.injEq] at known <;>
    simp only [here, nodeProgram, battleProgram, Network.ready, reduceCtorEq, Option.some.injEq,
      Option.map_eq_some_iff] at can
  -- in passing mode every way on takes the result along
  all_goals subst known
  all_goals
    first
    | (obtain ⟨_, -, rfl⟩ := can; rfl)
    | (split_ifs at can <;> cases can <;> rfl)

end SPHomework.Tournament
