import SPHomework.Lib.RequestReply
import SPHomework.Tournament.Champion

set_option autoImplicit false

/-!
# What the messages are about

A status names a player. Its attack, its attribute and the bound of its HP are
that player's, wherever the status is. On the pipes of a child only the player
is named whom the child speaks for.
-/

namespace SPHomework.Tournament

open Lib Network

variable {table : Table}

/-- What the table says of the player that the status names. -/
structure Genuine (table : Table) (status : Status) : Prop where
  hp : status.hp ≤ (table status.realPlayerId).hp
  atk : status.atk = (table status.realPlayerId).atk
  attr : status.attr = (playerStatus table status.realPlayerId).attr

structure Offered (table : Table) (status : Status) : Prop extends Genuine table status where
  flag : status.battleEndedFlag = 0
  alive : 1 ≤ status.hp

structure Replied (table : Table) (status : Status) : Prop extends Genuine table status where
  plain : status.battleEndedFlag ≠ 1 → status.battleEndedFlag = 0 ∧ 1 ≤ status.hp

/-- The player that a process speaks for, once that is known. -/
def speaker (now : Processes) : Node → Option (Fin 8)
  | .player i => some i
  | .agent a => (now.sent (.fifo (agentNumber a))).head?.map fun entry => entry.2.realPlayerId
  | .battle b => (now.place (.battle b)).result.map fun result => result.ending.winner

-- The two outputs of a round, with the end of the battle if it was the last.
structure Outputs (table : Table) (now : Processes) (b : BattleId) (leftOutput rightOutput : Status)
    (ending : Option Ending) : Prop where
  left : Replied table leftOutput
  right : Replied table rightOutput
  fromLeft : speaker now (child b .left) = some leftOutput.realPlayerId
  fromRight : speaker now (child b .right) = some rightOutput.realPlayerId
  decided : ∀ last, ending = some last → ∃ l r side, Decided b l r side ⟨leftOutput, rightOutput, last⟩

abbrev Ended (table : Table) (now : Processes) (b : BattleId) (result : Result) : Prop :=
  Outputs table now b result.left result.right (some result.ending)

def BattleHolds (table : Table) (now : Processes) (b : BattleId) : Local → Prop
  | .readLeft => True
  | .readRight leftPlayer =>
    Offered table leftPlayer ∧ speaker now (child b .left) = some leftPlayer.realPlayerId
  | .writeLeft leftOutput rightOutput ending => Outputs table now b leftOutput rightOutput ending
  | .writeRight leftOutput rightOutput ending => Outputs table now b leftOutput rightOutput ending
  | .waitLoser result => Ended table now b result
  | .printWinner result => Ended table now b result
  | .readWinner result => Ended table now b result
  | .writeParent result winnerStatus => Ended table now b result ∧ Offered table winnerStatus ∧
    winnerStatus.realPlayerId = result.ending.winner
  | .readParent result => Ended table now b result
  | .writeWinner result winnerStatus => Ended table now b result ∧ Replied table winnerStatus ∧
    winnerStatus.realPlayerId = result.ending.winner
  | .waitLast result => Ended table now b result
  | .returned result => Ended table now b result
  -- the places of the other program
  | _ => False

def PlayerHolds (table : Table) (i : Fin 8) : Local → Prop
  | .writeUp currentPlayer => Offered table currentPlayer ∧ currentPlayer.realPlayerId = i
  | .readDown => True
  | .writeFifo _ currentPlayer => Offered table currentPlayer ∧ currentPlayer.realPlayerId = i
  | .exited => True
  | _ => False

def AgentHolds (table : Table) (now : Processes) (a : Fin 7) : Local → Prop
  | .readFifo => now.taken (.fifo (agentNumber a)) = 0
  | .writeUp currentPlayer =>
    Offered table currentPlayer ∧ speaker now (.agent a) = some currentPlayer.realPlayerId
  | .readDown => True
  | .exited => True
  | _ => False

def Holds (table : Table) (now : Processes) : Node → Local → Prop
  | .battle b => BattleHolds table now b
  | .player i => PlayerHolds table i
  | .agent a => AgentHolds table now a

def Carried (table : Table) (now : Processes) : Channel → Node × Status → Prop
  | .up node, entry => Offered table entry.2 ∧ speaker now node = some entry.2.realPlayerId
  | .down node, entry => Replied table entry.2 ∧ speaker now node = some entry.2.realPlayerId
  | .fifo _, entry => Offered table entry.2 ∧ entry.1 = .player entry.2.realPlayerId

structure Authentic (table : Table) (now : Processes) : Prop where
  holds : ∀ node, Holds table now node (now.place node)
  carried : ∀ channel, ∀ entry ∈ now.sent channel, Carried table now channel entry

theorem Offered.fit (healthy : Healthy table) {st : Status} (offered : Offered table st) : Fit st := by
  have strong := healthy.atk st.realPlayerId
  have alive := offered.alive
  have atk := offered.atk
  exact ⟨by omega, by omega⟩

theorem Replied.offered {st : Status} (replied : Replied table st) (plain : st.battleEndedFlag ≠ 1) :
    Offered table st :=
  ⟨replied.toGenuine, (replied.plain plain).1, (replied.plain plain).2⟩

theorem Genuine.weaker {st after : Status} (genuine : Genuine table st) (less : after.hp ≤ st.hp)
    (same : after = { st with
      hp := after.hp
      currentBattleId := after.currentBattleId
      battleEndedFlag := after.battleEndedFlag }) :
    Genuine table after := by
  have id : after.realPlayerId = st.realPlayerId := by rw [same]
  have atk : after.atk = st.atk := by rw [same]
  have attr : after.attr = st.attr := by rw [same]
  refine ⟨?_, ?_, ?_⟩
  · rw [id]
    exact less.trans genuine.hp
  · rw [id, atk, genuine.atk]
  · rw [id, attr, genuine.attr]

theorem round_outputs (healthy : Healthy table) {now : Processes} {b : BattleId} {l r : Status}
    (left : Offered table l) (right : Offered table r)
    (fromLeft : speaker now (child b .left) = some l.realPlayerId)
    (fromRight : speaker now (child b .right) = some r.realPlayerId) :
    Outputs table now b (battleRound b l r).1 (battleRound b l r).2.1 (battleRound b l r).2.2 := by
  have fit := left.fit healthy
  have fit' := right.fit healthy
  obtain ⟨less, less'⟩ := battleRound_le b fit fit'
  rcases battleRound_cases b fit fit' with ⟨l', r', round, goes, goes'⟩ | ⟨result, side, round, decided⟩
  · rw [round] at less less' ⊢
    have same : l'.realPlayerId = l.realPlayerId := by rw [goes.same]
    have same' : r'.realPlayerId = r.realPlayerId := by rw [goes'.same]
    have flag : l'.battleEndedFlag = 0 := by
      rw [goes.same]
      exact left.flag
    have flag' : r'.battleEndedFlag = 0 := by
      rw [goes'.same]
      exact right.flag
    refine ⟨⟨left.toGenuine.weaker less ?_, fun _ => ⟨flag, goes.alive⟩⟩,
      ⟨right.toGenuine.weaker less' ?_, fun _ => ⟨flag', goes'.alive⟩⟩, ?_, ?_, by simp⟩
    · rw [goes.same]
    · rw [goes'.same]
    · rw [same, fromLeft]
    · rw [same', fromRight]
  · rw [round] at less less' ⊢
    have same : result.left.realPlayerId = l.realPlayerId := by rw [decided.left]
    have same' : result.right.realPlayerId = r.realPlayerId := by rw [decided.right]
    refine ⟨⟨left.toGenuine.weaker less ?_, fun plain => absurd (decided.status .left).1 plain⟩,
      ⟨right.toGenuine.weaker less' ?_, fun plain => absurd (decided.status .right).1 plain⟩, ?_, ?_, ?_⟩
    · rw [decided.left]
    · rw [decided.right]
    · rw [same, fromLeft]
    · rw [same', fromRight]
    · intro last ending
      obtain rfl := Option.some.inj ending
      exact ⟨l, r, side, decided⟩

-- The winner of a battle that has ended is whom the child on that side speaks for.
theorem Outputs.winner {now : Processes} {b : BattleId} {result : Result} (ended : Ended table now b result) :
    speaker now (child b result.ending.winnerPipe) = some result.ending.winner := by
  obtain ⟨l, r, side, decided⟩ := ended.decided _ rfl
  rw [decided.ending]
  cases side with
  | left => exact ended.fromLeft
  | right => exact ended.fromRight

theorem echo_offered (healthy : Healthy table) {st : Status} (replied : Replied table st)
    (alive : st.battleEndedFlag = 1 → 0 < st.hp) : Offered table (echo table st) := by
  unfold echo
  split_ifs with flag
  · have positive := alive flag
    have initial := healthy.hp st.realPlayerId
    have bound := replied.hp
    refine ⟨⟨?_, replied.atk, replied.attr⟩, rfl, ?_⟩
    · simp only [movesUp, playerStatus]
      omega
    · simp only [movesUp, playerStatus]
      omega
  · exact replied.offered flag

theorem reenters_offered (healthy : Healthy table) {st : Status} (replied : Replied table st) :
    Offered table (reenters table st) :=
  ⟨⟨Int.le_refl _, replied.atk, replied.attr⟩, rfl, healthy.hp st.realPlayerId⟩

theorem playerAnswer_holds (healthy : Healthy table) {st : Status} (replied : Replied table st) :
    PlayerHolds table st.realPlayerId (playerAnswer table st.realPlayerId st) := by
  unfold playerAnswer
  split_ifs with flag alive last here
  · have offered := echo_offered healthy replied fun _ => alive
    rw [echo, if_pos flag, movesUp, ← healed healthy alive] at offered
    exact ⟨offered, rfl⟩
  · trivial
  · trivial
  · exact ⟨reenters_offered healthy replied, rfl⟩
  · exact ⟨replied.offered flag, rfl⟩

theorem agentAnswer_holds (healthy : Healthy table) {now : Processes} {a : Fin 7} {st : Status}
    (replied : Replied table st) (speaks : speaker now (.agent a) = some st.realPlayerId) :
    AgentHolds table now a (agentAnswer table st) := by
  unfold agentAnswer
  split_ifs with flag stops
  · trivial
  · have alive : 0 < st.hp := by omega
    have offered := echo_offered healthy replied fun _ => alive
    rw [echo, if_pos flag, movesUp, ← healed healthy alive] at offered
    exact ⟨offered, speaks⟩
  · exact ⟨replied.offered flag, speaks⟩

theorem speaker_kept {now after : Processes} {p node : Node} {i : Fin 8}
    (stepped : now.step (nodeProgram table) p = some after) (speaks : speaker now node = some i) :
    speaker after node = some i := by
  cases node with
  | player j => exact speaks
  | agent a =>
    obtain ⟨entry, first, rfl⟩ := Option.map_eq_some_iff.mp speaks
    obtain ⟨rest, sent⟩ := List.head?_eq_some_iff.mp first
    simp only [speaker]
    cases step_touch (.fifo (agentNumber a)) stepped with
    | sends message doing sent' taken => rw [sent', sent]; rfl
    | receives next message doing found place sent' taken => rw [sent', sent]; rfl
    | spares spares sent' taken => rw [sent', sent]; rfl
  | battle b =>
    obtain ⟨result, found, rfl⟩ := Option.map_eq_some_iff.mp speaks
    have whole : Within (nodeProgram table) Set.univ now after := ⟨[p], fun _ _ => trivial, by simp [run, stepped]⟩
    simp only [speaker, result_kept whole found, Option.map_some]

theorem Outputs.kept {now after : Processes} {b : BattleId} {l r : Status} {ending : Option Ending}
    (outputs : Outputs table now b l r ending)
    (kept : ∀ node i, speaker now node = some i → speaker after node = some i) :
    Outputs table after b l r ending :=
  ⟨outputs.left, outputs.right, kept _ _ outputs.fromLeft, kept _ _ outputs.fromRight, outputs.decided⟩

theorem Carried.kept {now after : Processes} {channel : Channel} {entry : Node × Status}
    (carried : Carried table now channel entry)
    (kept : ∀ node i, speaker now node = some i → speaker after node = some i) :
    Carried table after channel entry := by
  cases channel with
  | up node => exact ⟨carried.1, kept _ _ carried.2⟩
  | down node => exact ⟨carried.1, kept _ _ carried.2⟩
  | fifo k => exact carried

theorem Holds.kept {now after : Processes} {node : Node} {place : Local}
    (holds : Holds table now node place)
    (kept : ∀ node i, speaker now node = some i → speaker after node = some i)
    (fresh : ∀ a, node = .agent a → place = .readFifo →
      after.taken (.fifo (agentNumber a)) = now.taken (.fifo (agentNumber a))) :
    Holds table after node place := by
  cases node with
  | battle b =>
    cases place with
    | readRight l => exact ⟨holds.1, kept _ _ holds.2⟩
    | writeLeft l r ending => exact Outputs.kept holds kept
    | writeRight l r ending => exact Outputs.kept holds kept
    | waitLoser result => exact Outputs.kept holds kept
    | printWinner result => exact Outputs.kept holds kept
    | readWinner result => exact Outputs.kept holds kept
    | writeParent result st => exact ⟨Outputs.kept holds.1 kept, holds.2⟩
    | readParent result => exact Outputs.kept holds kept
    | writeWinner result st => exact ⟨Outputs.kept holds.1 kept, holds.2⟩
    | waitLast result => exact Outputs.kept holds kept
    | returned result => exact Outputs.kept holds kept
    | _ => exact holds
  | player i => exact holds
  | agent a =>
    cases place with
    | readFifo => exact (fresh a rfl rfl).trans holds
    | writeUp st => exact ⟨holds.1, kept _ _ holds.2⟩
    | _ => exact holds

-- What a process sends is what it holds.
theorem sends_carried {now : Processes} {p : Node} {channel : Channel} {message : Status} {next : Local}
    (holds : Holds table now p (now.place p))
    (doing : nodeProgram table p (now.place p) = .send channel message next) :
    Carried table now channel (p, message) := by
  cases p with
  | battle b =>
    cases here : now.place (.battle b) <;>
      simp only [here, nodeProgram, battleProgram, reduceCtorEq, Action.send.injEq] at doing <;>
      rw [here] at holds
    · obtain ⟨rfl, rfl, -⟩ := doing
      exact ⟨Outputs.left holds, Outputs.fromLeft holds⟩
    · obtain ⟨rfl, rfl, -⟩ := doing
      exact ⟨Outputs.right holds, Outputs.fromRight holds⟩
    · obtain ⟨rfl, rfl, -⟩ := doing
      obtain ⟨-, offered, same⟩ := holds
      exact ⟨offered, by simp [speaker, here, Local.result, same]⟩
    · obtain ⟨rfl, rfl, -⟩ := doing
      obtain ⟨ended, replied, same⟩ := holds
      exact ⟨replied, by rw [ended.winner, same]⟩
  | player i =>
    cases here : now.place (.player i) with
    | writeFifo target st =>
      rw [here] at holds
      cases target with
      | none => simp [here, nodeProgram, playerProgram] at doing
      | some k =>
        simp only [here, nodeProgram, playerProgram, Action.send.injEq] at doing
        obtain ⟨rfl, rfl, -⟩ := doing
        exact ⟨holds.1, congrArg Node.player holds.2.symm⟩
    | writeUp st =>
      rw [here] at holds
      simp only [here, nodeProgram, playerProgram, pipeProgram, Action.send.injEq] at doing
      obtain ⟨rfl, rfl, -⟩ := doing
      exact ⟨holds.1, congrArg some holds.2.symm⟩
    | _ => simp [here, nodeProgram, playerProgram, pipeProgram] at doing
  | agent a =>
    cases here : now.place (.agent a) with
    | writeUp st =>
      rw [here] at holds
      simp only [here, nodeProgram, agentProgram, pipeProgram, Action.send.injEq] at doing
      obtain ⟨rfl, rfl, -⟩ := doing
      exact holds
    | _ => simp [here, nodeProgram, agentProgram, pipeProgram] at doing

theorem receives_holds (healthy : Healthy table) {now : Processes} {p : Node} {channel : Channel}
    {entry : Node × Status} {next : Status → Local} (holds : Holds table now p (now.place p))
    (doing : nodeProgram table p (now.place p) = .receive channel next)
    (carried : Carried table now channel entry)
    (first : ∀ a, channel = .fifo (agentNumber a) → now.taken channel = 0 →
      speaker now (.agent a) = some entry.2.realPlayerId) :
    Holds table now p (next entry.2) := by
  cases p with
  | battle b =>
    cases here : now.place (.battle b) <;>
      simp only [here, nodeProgram, battleProgram, reduceCtorEq, Action.receive.injEq] at doing <;>
      rw [here] at holds
    · obtain ⟨rfl, rfl⟩ := doing
      exact carried
    · obtain ⟨rfl, rfl⟩ := doing
      exact round_outputs healthy holds.1 carried.1 holds.2 carried.2
    · obtain ⟨rfl, rfl⟩ := doing
      refine ⟨holds, carried.1, ?_⟩
      have speaks := Outputs.winner holds
      rw [carried.2, Option.some.injEq] at speaks
      exact speaks
    · -- the answer from above is about the player that the battle has sent up
      obtain ⟨rfl, rfl⟩ := doing
      refine ⟨holds, carried.1, ?_⟩
      have speaks := carried.2
      simp only [speaker, here, Local.result, Option.map_some, Option.some.injEq] at speaks
      exact speaks.symm
  | player i =>
    cases here : now.place (.player i) with
    | writeFifo target st => cases target <;> simp [here, nodeProgram, playerProgram] at doing
    | readDown =>
      simp only [here, nodeProgram, playerProgram, pipeProgram, Action.receive.injEq] at doing
      obtain ⟨rfl, rfl⟩ := doing
      obtain rfl : i = entry.2.realPlayerId := Option.some.inj carried.2
      exact playerAnswer_holds healthy carried.1
    | _ => simp [here, nodeProgram, playerProgram, pipeProgram] at doing
  | agent a =>
    cases here : now.place (.agent a) with
    | readFifo =>
      rw [here] at holds
      simp only [here, nodeProgram, agentProgram, Action.receive.injEq] at doing
      obtain ⟨rfl, rfl⟩ := doing
      exact ⟨carried.1, first a rfl holds⟩
    | readDown =>
      simp only [here, nodeProgram, agentProgram, pipeProgram, Action.receive.injEq] at doing
      obtain ⟨rfl, rfl⟩ := doing
      exact agentAnswer_holds healthy carried.1 carried.2
    | _ => simp [here, nodeProgram, agentProgram, pipeProgram] at doing

-- The other ways on keep what is held, or forget it.
theorem moves_hold {now : Processes} {p : Node} {place next : Local} (holds : Holds table now p place)
    (leads : (nodeProgram table p place).Leads next)
    (keeps : ∀ channel next, nodeProgram table p place ≠ .receive channel next) : Holds table now p next := by
  cases p with
  | battle b =>
    cases place with
    | writeLeft l r ending =>
      rw [show next = _ from leads]
      exact holds
    | writeRight l r ending =>
      rw [show next = _ from leads]
      cases ending with
      | none => trivial
      | some last => exact holds
    | waitLoser result =>
      rw [show next = _ from leads]
      split_ifs <;> exact holds
    | printWinner result =>
      rw [show next = _ from leads]
      exact holds
    | writeParent result st =>
      rw [show next = _ from leads]
      exact holds.1
    | writeWinner result st =>
      rw [show next = _ from leads]
      split_ifs <;> exact holds.1
    | waitLast result =>
      rw [show next = _ from leads]
      exact holds
    | readLeft | readRight _ | readWinner _ | readParent _ => exact absurd rfl (keeps _ _)
    | _ => cases leads
  | player i =>
    cases place with
    | writeFifo target st =>
      cases target with
      | none => cases leads
      | some k =>
        rw [show next = _ from leads]
        trivial
    | writeUp st =>
      rw [show next = _ from leads]
      trivial
    | readDown => exact absurd rfl (keeps _ _)
    | _ => cases leads
  | agent a =>
    cases place with
    | writeUp st =>
      rw [show next = _ from leads]
      trivial
    | readFifo | readDown => exact absurd rfl (keeps _ _)
    | _ => cases leads

theorem agent_enters_once {a : Fin 7} {place next : Local}
    (leads : (nodeProgram table (.agent a) place).Leads next) : next ≠ .readFifo := by
  cases place with
  | readFifo =>
    obtain ⟨message, rfl⟩ := leads
    exact Local.noConfusion
  | writeUp st =>
    rw [show next = _ from leads]
    exact Local.noConfusion
  | readDown =>
    obtain ⟨message, rfl⟩ := leads
    unfold agentAnswer
    split_ifs <;> exact Local.noConfusion
  | _ => cases leads

theorem fifo_reader (table : Table) {a : Fin 7} {p : Node} {place : Local} {next : Status → Local}
    (doing : nodeProgram table p place = .receive (.fifo (agentNumber a)) next) : p = .agent a := by
  have reads := reads_reader table doing
  have inside := a.isLt
  simp only [reader, agentNumber, Nat.le_add_right, true_and, Nat.add_sub_cancel_left] at reads
  rw [dif_pos (by omega), Option.some.injEq] at reads
  exact reads.symm

theorem authentic_start (healthy : Healthy table) (flags : ∀ i, (table i).battleEndedFlag = 0) :
    Authentic table (start table) := by
  refine ⟨?_, by simp [start]⟩
  intro node
  cases node with
  | battle b => trivial
  | player i => exact ⟨⟨⟨Int.le_refl _, rfl, rfl⟩, flags i, healthy.hp i⟩, rfl⟩
  | agent a => rfl

theorem authentic_step (healthy : Healthy table) {now after : Processes} {p : Node}
    (authentic : Authentic table now) (stepped : now.step (nodeProgram table) p = some after) :
    Authentic table after := by
  have kept : ∀ node i, speaker now node = some i → speaker after node = some i :=
    fun node i => speaker_kept stepped
  have leads := step_leads stepped
  obtain ⟨holds, carried⟩ := authentic
  constructor
  · intro node
    by_cases own : node = p
    · subst own
      have next : Holds table now node (after.place node) := by
        by_cases reads : ∃ channel next, nodeProgram table node (now.place node) = .receive channel next
        · obtain ⟨channel, next, doing⟩ := reads
          cases step_touch channel stepped with
          | sends message doing' => simp [doing] at doing'
          | spares spares => exact absurd doing (spares.2 next)
          | receives next' entry doing' found place sent taken =>
            rw [place]
            have member := List.mem_of_getElem? found
            refine receives_holds healthy (holds node) doing' (carried channel entry member) ?_
            rintro a rfl none_
            rw [none_] at found
            simp [speaker, List.head?_eq_getElem?, found]
        · exact moves_hold (holds node) leads fun channel next doing => reads ⟨channel, next, doing⟩
      apply next.kept kept
      rintro a rfl here
      exact absurd here (agent_enters_once leads)
    · rw [step_place stepped node own]
      apply (holds node).kept kept
      rintro a rfl -
      cases step_touch (.fifo (agentNumber a)) stepped with
      | sends message doing sent taken => exact taken
      | receives next entry doing => exact absurd (fifo_reader table doing).symm own
      | spares spares sent taken => exact taken
  · intro channel entry member
    cases step_touch channel stepped with
    | sends message doing sent taken =>
      rw [sent] at member
      rcases List.mem_append.mp member with before | last
      · exact (carried channel entry before).kept kept
      · rw [List.mem_singleton.mp last]
        exact (sends_carried (holds p) doing).kept kept
    | receives next message doing found place sent taken => exact (carried channel entry (sent ▸ member)).kept kept
    | spares spares sent taken => exact (carried channel entry (sent ▸ member)).kept kept

theorem authentic_run (healthy : Healthy table) (flags : ∀ i, (table i).battleEndedFlag = 0)
    {labels : List Node} {now : Processes}
    (ran : run (step (nodeProgram table)) (start table) labels = some now) : Authentic table now :=
  run_invariant _ (Authentic table) (fun _ _ _ before stepped => authentic_step healthy before stepped) _ now
    labels (authentic_start healthy flags) ran

/-- The statuses that a process has at a place. -/
def Local.statuses : Local → List Status
  | .readRight leftPlayer => [leftPlayer]
  | .writeLeft leftOutput rightOutput _ => [leftOutput, rightOutput]
  | .writeRight leftOutput rightOutput _ => [leftOutput, rightOutput]
  | .waitLoser result => [result.left, result.right]
  | .printWinner result => [result.left, result.right]
  | .readWinner result => [result.left, result.right]
  | .writeParent result winnerStatus => [result.left, result.right, winnerStatus]
  | .readParent result => [result.left, result.right]
  | .writeWinner result winnerStatus => [result.left, result.right, winnerStatus]
  | .waitLast result => [result.left, result.right]
  | .returned result => [result.left, result.right]
  | .writeUp currentPlayer => [currentPlayer]
  | .writeFifo _ currentPlayer => [currentPlayer]
  | _ => []

theorem Outputs.both {now : Processes} {b : BattleId} {l r : Status} {ending : Option Ending}
    (outputs : Outputs table now b l r ending) : ∀ st ∈ [l, r], Genuine table st := by
  simp [outputs.left.toGenuine, outputs.right.toGenuine]

theorem Authentic.ended {now : Processes} (authentic : Authentic table now) {b : BattleId} {result : Result}
    (found : (now.place (.battle b)).result = some result) : Ended table now b result := by
  have holds := authentic.holds (.battle b)
  cases here : now.place (.battle b) <;> rw [here] at found holds <;>
    simp only [Local.result, reduceCtorEq, Option.some.injEq] at found <;> subst found
  case writeParent => exact holds.1
  case writeWinner => exact holds.1
  all_goals exact holds

theorem Authentic.held {now : Processes} (authentic : Authentic table now) (node : Node) :
    ∀ st ∈ (now.place node).statuses, Genuine table st := by
  have holds := authentic.holds node
  cases node with
  | battle b =>
    cases here : now.place (.battle b) with
    | readRight l =>
      rw [here] at holds
      simpa [Local.statuses] using holds.1.toGenuine
    | writeLeft l r ending =>
      rw [here] at holds
      exact Outputs.both holds
    | writeRight l r ending =>
      rw [here] at holds
      exact Outputs.both holds
    | writeParent result st =>
      rw [here] at holds
      exact List.forall_mem_append.mpr ⟨holds.1.both, List.forall_mem_singleton.mpr holds.2.1.toGenuine⟩
    | writeWinner result st =>
      rw [here] at holds
      exact List.forall_mem_append.mpr ⟨holds.1.both, List.forall_mem_singleton.mpr holds.2.1.toGenuine⟩
    | waitLoser result | printWinner result | readWinner result | readParent result | waitLast result
      | returned result =>
      rw [here] at holds
      exact Outputs.both holds
    | readLeft => simp [Local.statuses]
    | _ =>
      rw [here] at holds
      cases holds
  | player i =>
    cases here : now.place (.player i) with
    | writeUp st | writeFifo target st =>
      rw [here] at holds
      simpa [Local.statuses] using holds.1.toGenuine
    | readDown | exited => simp [Local.statuses]
    | _ =>
      rw [here] at holds
      cases holds
  | agent a =>
    cases here : now.place (.agent a) with
    | writeUp st =>
      rw [here] at holds
      simpa [Local.statuses] using holds.1.toGenuine
    | readFifo | readDown | exited => simp [Local.statuses]
    | _ =>
      rw [here] at holds
      cases holds

/-- The player comes out of the process: he plays there himself, was the loser that wrote to the
agent, or has won the battle, and came out on that side of it. -/
inductive Represents (now : Processes) : Node → Fin 8 → Prop where
  | player (i : Fin 8) : Represents now (.player i) i
  | agent {a : Fin 7} {status : Status}
    (first : (now.sent (.fifo (agentNumber a))).head? = some (.player status.realPlayerId, status)) :
    Represents now (.agent a) status.realPlayerId
  | battle {b : BattleId} {side : Side} {result : Result} {i : Fin 8}
    (found : (now.place (.battle b)).result = some result) (won : result.ending = .of i side)
    (alive : 0 < (result.status side).hp) (down : (result.status side.other).hp ≤ 0)
    (below : Represents now (child b side) i) : Represents now (.battle b) i

def rank : Node → Nat
  | .battle b => order.idxOf b + 1
  | _ => 0

theorem rank_child (b : BattleId) (side : Side) : rank (child b side) < rank (.battle b) := by
  revert b side
  decide

theorem Authentic.represents {now : Processes} (authentic : Authentic table now) (node : Node) (i : Fin 8)
    (speaks : speaker now node = some i) : Represents now node i := by
  -- a battle comes after those below it in the order
  induction height : rank node using Nat.strong_induction_on generalizing node i with
  | _ n ih =>
    cases node with
    | player j =>
      obtain rfl := Option.some.inj speaks
      exact .player j
    | agent a =>
      obtain ⟨entry, first, rfl⟩ := Option.map_eq_some_iff.mp speaks
      have own := (authentic.carried _ entry (List.mem_of_head? first)).2
      refine .agent ?_
      rw [first, ← own]
    | battle b =>
      obtain ⟨result, found, rfl⟩ := Option.map_eq_some_iff.mp speaks
      have ended := authentic.ended found
      have below := ended.winner
      obtain ⟨l, r, side, decided⟩ := ended.decided _ rfl
      have ending : result.ending = .of (result.status side).realPlayerId side := decided.ending
      rw [ending] at below ⊢
      exact .battle found ending decided.alive decided.down
        (ih _ (height ▸ rank_child b side) _ _ below rfl)

/-- In every state of every run: what the statuses say is true of the players that they name, who is
sent up is alive, and each child speaks for the player that comes out of it. -/
theorem statuses_authentic (healthy : Healthy table) (flags : ∀ i, (table i).battleEndedFlag = 0)
    {labels : List Node} {now : Processes}
    (ran : run (step (nodeProgram table)) (start table) labels = some now) :
    (∀ node, ∀ status ∈ (now.place node).statuses, Genuine table status) ∧
    (∀ channel, ∀ entry ∈ now.sent channel, Genuine table entry.2) ∧
    (∀ node, ∀ entry ∈ now.sent (.up node), entry.2.battleEndedFlag = 0 ∧ 1 ≤ entry.2.hp) ∧
    (∀ b side, ∀ entry, entry ∈ now.sent (.up (child b side)) ∨ entry ∈ now.sent (.down (child b side)) →
      Represents now (child b side) entry.2.realPlayerId) := by
  have authentic := authentic_run healthy flags ran
  refine ⟨authentic.held, ?_, ?_, ?_⟩
  · intro channel entry member
    have carried := authentic.carried channel entry member
    cases channel with
    | up node => exact carried.1.toGenuine
    | down node => exact carried.1.toGenuine
    | fifo k => exact carried.1.toGenuine
  · intro node entry member
    have offered := (authentic.carried _ entry member).1
    exact ⟨offered.flag, offered.alive⟩
  · rintro b side entry (member | member)
    · exact authentic.represents _ _ (authentic.carried _ entry member).2
    · exact authentic.represents _ _ (authentic.carried _ entry member).2

theorem statuses_authentic_sample : ∃ labels final,
    run (step (nodeProgram sample)) (start sample) labels = some final ∧
      (∀ node, final.step (nodeProgram sample) node = none) ∧
      (∀ channel, ∀ entry ∈ final.sent channel, Genuine sample entry.2) ∧
      ∀ entry ∈ final.sent (.up (child .A .left)), Represents final (.battle .B) entry.2.realPlayerId := by
  obtain ⟨labels, final, ran, stuck⟩ := sample_complete
  obtain ⟨-, genuine, -, speaks⟩ := statuses_authentic sample_healthy (by decide) ran
  exact ⟨labels, final, ran, stuck, genuine, fun entry member => speaks .A .left entry (.inl member)⟩

end SPHomework.Tournament
