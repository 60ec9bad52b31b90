import SPHomework.Lib.Cargo
import SPHomework.Threads.Trajectory
import SPHomework.Tournament.StatusFile
import SPHomework.Tournament.Statuses

set_option autoImplicit false

/-!
# The processes with machine integers

`HP` and `ATK` are ints of 32 bits. With moderate numbers in the status file no
process ever computes one that does not fit, so the processes with exact integers
are the processes.
-/

namespace SPHomework.Tournament

open Lib Network
open Threads (int32 int32_eq int32_range intMin intMax)

def damage32 (currentField attr : Attribute) (atk : Int) : Int :=
  if attr = currentField then int32 (atk * 2) else atk

def Status.struck32 (target : Status) (currentField : Attribute) (striker : Status) : Status :=
  { target with hp := int32 (target.hp - damage32 currentField striker.attr striker.atk) }

/-- A round as the processor computes it. -/
def battleRound32 (b : BattleId) (leftPlayer rightPlayer : Status) : Status × Status × Option Ending :=
  let leftOutput := { leftPlayer with currentBattleId := b.char }
  let rightOutput := { rightPlayer with currentBattleId := b.char }
  if leftOutput.hp < rightOutput.hp ∨
      leftOutput.hp = rightOutput.hp ∧ leftOutput.realPlayerId < rightOutput.realPlayerId then
    let rightOutput := rightOutput.struck32 (field b) leftOutput
    if 0 < rightOutput.hp then
      let leftOutput := leftOutput.struck32 (field b) rightOutput
      if 0 < leftOutput.hp then (leftOutput, rightOutput, none)
      else (leftOutput.ended, rightOutput.ended, some (.of rightOutput.realPlayerId .right))
    else (leftOutput.ended, rightOutput.ended, some (.of leftOutput.realPlayerId .left))
  else
    let leftOutput := leftOutput.struck32 (field b) rightOutput
    if 0 < leftOutput.hp then
      let rightOutput := rightOutput.struck32 (field b) leftOutput
      if 0 < rightOutput.hp then (leftOutput, rightOutput, none)
      else (leftOutput.ended, rightOutput.ended, some (.of leftOutput.realPlayerId .left))
    else (leftOutput.ended, rightOutput.ended, some (.of rightOutput.realPlayerId .right))

def playerAnswer32 (table : Table) (currentId : Fin 8) (currentPlayer : Status) : Local :=
  if currentPlayer.battleEndedFlag = 1 then
    if 0 < currentPlayer.hp then
      if currentPlayer.currentBattleId ≠ 'A' then
        .writeUp { currentPlayer with
          hp := (int32 (currentPlayer.hp + (playerStatus table currentId).hp)).tdiv 2, battleEndedFlag := 0 }
      else .exited
    else if currentPlayer.currentBattleId = 'A' then .exited
    else .writeFifo (agentId currentPlayer.currentBattleId)
      { currentPlayer with hp := (playerStatus table currentId).hp, battleEndedFlag := 0 }
  else .writeUp currentPlayer

def agentAnswer32 (table : Table) (currentPlayer : Status) : Local :=
  if currentPlayer.battleEndedFlag = 1 then
    if currentPlayer.hp ≤ 0 ∨ currentPlayer.currentBattleId = 'A' then .exited
    else .writeUp { currentPlayer with
      hp := (int32 (currentPlayer.hp + (playerStatus table currentPlayer.realPlayerId).hp)).tdiv 2
      battleEndedFlag := 0 }
  else .writeUp currentPlayer

-- The places where a process computes; everywhere else it passes statuses on.
def nodeProgram32 (table : Table) : Node → Local → Step
  | .battle b, .readRight leftPlayer => .receive (.up (child b .right)) fun rightPlayer =>
    let outputs := battleRound32 b leftPlayer rightPlayer
    .writeLeft outputs.1 outputs.2.1 outputs.2.2
  | .player currentId, .readDown => .receive (.down (.player currentId)) (playerAnswer32 table currentId)
  | .agent id, .readDown => .receive (.down (.agent id)) (agentAnswer32 table)
  | node, place => nodeProgram table node place

/-- Twice a number of the table still fits an int. -/
structure Moderate (table : Table) : Prop extends Healthy table where
  hp' : ∀ i, (table i).hp ≤ 1073741823
  atk' : ∀ i, (table i).atk ≤ 1073741823

variable {table : Table}

theorem struck32_eq (currentField : Attribute) (target striker : Status) (alive : 1 ≤ target.hp)
    (most : target.hp ≤ 1073741823) (strong : 1 ≤ striker.atk) (most' : striker.atk ≤ 1073741823) :
    target.struck32 currentField striker = target.struck currentField striker := by
  have double : damage32 currentField striker.attr striker.atk = damage currentField striker.attr striker.atk := by
    unfold damage32 damage
    split_ifs
    · exact int32_eq (by unfold intMin; omega) (by unfold intMax; omega)
    · rfl
  have least : 0 < damage currentField striker.attr striker.atk ∧
      damage currentField striker.attr striker.atk ≤ 2147483646 := by
    unfold damage
    split_ifs <;> omega
  rw [Status.struck32, Status.struck, double, int32_eq (by unfold intMin; omega) (by unfold intMax; omega)]

/-- The numbers of a status, twice which fit an int. -/
structure Modest (status : Status) : Prop where
  hp : status.hp ≤ 1073741823
  strong : 1 ≤ status.atk
  atk : status.atk ≤ 1073741823

/-- What a child sends up and a loser writes to a fifo. -/
structure Standing (status : Status) : Prop extends Modest status where
  alive : 1 ≤ status.hp

/-- What a battle sends down: without the flag the contestant goes on fighting. -/
structure Judged (status : Status) : Prop extends Modest status where
  goesOn : status.battleEndedFlag ≠ 1 → 1 ≤ status.hp

theorem Standing.fit {st : Status} (standing : Standing st) : Fit st := by
  have alive := standing.alive
  have strong := standing.strong
  exact ⟨by omega, by omega⟩

theorem Modest.weaker {st after : Status} (modest : Modest st) (less : after.hp ≤ st.hp) (same : after.atk = st.atk) :
    Modest after :=
  ⟨less.trans modest.hp, same ▸ modest.strong, same ▸ modest.atk⟩

theorem battleRound32_eq (b : BattleId) {l r : Status} (left : Standing l) (right : Standing r) :
    battleRound32 b l r = battleRound b l r := by
  -- each side is struck once, with the numbers it came with
  have onRight : ∀ striker : Status, striker.atk = l.atk →
      Status.struck32 { r with currentBattleId := b.char } (field b) striker =
        Status.struck { r with currentBattleId := b.char } (field b) striker := by
    intro striker atk
    exact struck32_eq _ _ _ right.alive right.hp (atk ▸ left.strong) (atk ▸ left.atk)
  have onLeft : ∀ striker : Status, striker.atk = r.atk →
      Status.struck32 { l with currentBattleId := b.char } (field b) striker =
        Status.struck { l with currentBattleId := b.char } (field b) striker := by
    intro striker atk
    exact struck32_eq _ _ _ left.alive left.hp (atk ▸ right.strong) (atk ▸ right.atk)
  have first := onRight { l with currentBattleId := b.char } rfl
  have second := onLeft (Status.struck { r with currentBattleId := b.char } (field b)
    { l with currentBattleId := b.char }) rfl
  have first' := onLeft { r with currentBattleId := b.char } rfl
  have second' := onRight (Status.struck { l with currentBattleId := b.char } (field b)
    { r with currentBattleId := b.char }) rfl
  simp only [battleRound32, first, second, first', second']
  rfl

theorem heal32_eq (moderate : Moderate table) (i : Fin 8) {hp : Int} (most : hp ≤ 1073741823) (alive : 1 ≤ hp) :
    int32 (hp + (playerStatus table i).hp) = hp + (playerStatus table i).hp := by
  have positive := moderate.hp i
  have most' := moderate.hp' i
  exact int32_eq (by simp only [intMin, playerStatus]; omega) (by simp only [intMax, playerStatus]; omega)

theorem heal_bounds (moderate : Moderate table) (i : Fin 8) {hp : Int} (most : hp ≤ 1073741823) (alive : 1 ≤ hp) :
    1 ≤ (hp + (playerStatus table i).hp).tdiv 2 ∧ (hp + (playerStatus table i).hp).tdiv 2 ≤ 1073741823 := by
  have positive := moderate.hp i
  have most' := moderate.hp' i
  simp only [playerStatus]
  rw [Int.tdiv_eq_ediv_of_nonneg (by omega)]
  omega

theorem playerAnswer32_eq (moderate : Moderate table) (i : Fin 8) {st : Status} (judged : Judged st) :
    playerAnswer32 table i st = playerAnswer table i st := by
  unfold playerAnswer32 playerAnswer
  split_ifs with flag alive
  · rw [heal32_eq moderate i judged.hp alive]
  all_goals rfl

theorem agentAnswer32_eq (moderate : Moderate table) {st : Status} (judged : Judged st) :
    agentAnswer32 table st = agentAnswer table st := by
  unfold agentAnswer32 agentAnswer
  split_ifs with flag leaves
  · rfl
  · rw [heal32_eq moderate st.realPlayerId judged.hp (by omega)]
  · rfl

theorem round_judged (b : BattleId) {l r : Status} (left : Standing l) (right : Standing r) :
    Judged (battleRound b l r).1 ∧ Judged (battleRound b l r).2.1 := by
  obtain ⟨less, less'⟩ := battleRound_le b left.fit right.fit
  rcases battleRound_cases b left.fit right.fit with ⟨l', r', round, goes, goes'⟩ | ⟨result, side, round, decided⟩
  · rw [round] at less less' ⊢
    have atk : l'.atk = l.atk := by rw [goes.same]
    have atk' : r'.atk = r.atk := by rw [goes'.same]
    exact ⟨⟨left.toModest.weaker less atk, fun _ => goes.alive⟩, right.toModest.weaker less' atk', fun _ => goes'.alive⟩
  · rw [round] at less less' ⊢
    have atk : result.left.atk = l.atk := by rw [decided.left]
    have atk' : result.right.atk = r.atk := by rw [decided.right]
    exact ⟨⟨left.toModest.weaker less atk, fun plain => absurd (decided.status .left).1 plain⟩,
      right.toModest.weaker less' atk', fun plain => absurd (decided.status .right).1 plain⟩

-- The statuses that a process is about to work on or to send.
def Promised : Local → Prop
  | .readRight leftPlayer => Standing leftPlayer
  | .writeLeft leftOutput rightOutput _ => Judged leftOutput ∧ Judged rightOutput
  | .writeRight _ rightOutput _ => Judged rightOutput
  | .writeParent _ winnerStatus => Standing winnerStatus
  | .writeWinner _ winnerStatus => Judged winnerStatus
  | .writeUp currentPlayer => Standing currentPlayer
  | .writeFifo _ currentPlayer => Standing currentPlayer
  | _ => True

def PromisedOn : Channel → Status → Prop
  | .up _ => Standing
  | .down _ => Judged
  | .fifo _ => Standing

theorem playerAnswer_promised (moderate : Moderate table) (i : Fin 8) {st : Status} (judged : Judged st) :
    Promised (playerAnswer table i st) := by
  unfold playerAnswer
  split_ifs with flag alive last here
  · obtain ⟨least, bound⟩ := heal_bounds moderate i judged.hp alive
    exact ⟨⟨bound, judged.strong, judged.atk⟩, least⟩
  · trivial
  · trivial
  · exact ⟨⟨moderate.hp' i, judged.strong, judged.atk⟩, moderate.hp i⟩
  · exact ⟨judged.toModest, judged.goesOn flag⟩

theorem agentAnswer_promised (moderate : Moderate table) {st : Status} (judged : Judged st) :
    Promised (agentAnswer table st) := by
  unfold agentAnswer
  split_ifs with flag leaves
  · trivial
  · obtain ⟨least, bound⟩ := heal_bounds moderate st.realPlayerId judged.hp (by omega)
    exact ⟨⟨bound, judged.strong, judged.atk⟩, least⟩
  · exact ⟨judged.toModest, judged.goesOn flag⟩

/-- Whatever flags the table has, the statuses that go up are of the living, with moderate numbers. -/
theorem node_contract (moderate : Moderate table) :
    Contract (nodeProgram table) (fun _ => Promised) PromisedOn where
  sends := by
    intro node place channel message next promised doing
    cases node with
    | battle b =>
      cases place <;>
        simp only [nodeProgram, battleProgram, reduceCtorEq, Action.send.injEq] at doing <;>
        obtain ⟨rfl, rfl, -⟩ := doing
      · exact promised.1
      all_goals exact promised
    | player i =>
      cases place with
      | writeFifo target st =>
        cases target with
        | none => simp [nodeProgram, playerProgram] at doing
        | some k =>
          simp only [nodeProgram, playerProgram, Action.send.injEq] at doing
          obtain ⟨rfl, rfl, -⟩ := doing
          exact promised
      | writeUp st =>
        simp only [nodeProgram, playerProgram, pipeProgram, Action.send.injEq] at doing
        obtain ⟨rfl, rfl, -⟩ := doing
        exact promised
      | _ => simp [nodeProgram, playerProgram, pipeProgram] at doing
    | agent a =>
      cases place with
      | writeUp st =>
        simp only [nodeProgram, agentProgram, pipeProgram, Action.send.injEq] at doing
        obtain ⟨rfl, rfl, -⟩ := doing
        exact promised
      | _ => simp [nodeProgram, agentProgram, pipeProgram] at doing
  keeps := by
    intro node place next promised leads quiet
    cases node with
    | battle b =>
      cases place with
      | writeLeft l r ending =>
        rw [show next = _ from leads]
        exact promised.2
      | writeRight l r ending =>
        rw [show next = _ from leads]
        cases ending <;> trivial
      | waitLoser result =>
        rw [show next = _ from leads]
        split_ifs <;> trivial
      | writeWinner result st =>
        rw [show next = _ from leads]
        split_ifs <;> trivial
      | printWinner _ | waitLast _ | writeParent _ _ =>
        rw [show next = _ from leads]
        trivial
      | readLeft | readRight _ | readWinner _ | readParent _ => exact absurd rfl (quiet _ _)
      | _ => cases leads
    | player i =>
      cases place with
      | writeFifo target st =>
        cases target with
        | none => cases leads
        | some k =>
          rw [show next = _ from leads]
          trivial
      | writeUp st =>
        rw [show next = _ from leads]
        trivial
      | readDown => exact absurd rfl (quiet _ _)
      | _ => cases leads
    | agent a =>
      cases place with
      | writeUp st =>
        rw [show next = _ from leads]
        trivial
      | readFifo | readDown => exact absurd rfl (quiet _ _)
      | _ => cases leads
  receives := by
    intro node place channel next st promised doing arrived
    cases node with
    | battle b =>
      cases place <;>
        simp only [nodeProgram, battleProgram, reduceCtorEq, Action.receive.injEq] at doing <;>
        obtain ⟨rfl, rfl⟩ := doing
      · exact arrived
      · exact round_judged b promised arrived
      all_goals exact arrived
    | player i =>
      cases place with
      | writeFifo target st' => cases target <;> simp [nodeProgram, playerProgram] at doing
      | readDown =>
        simp only [nodeProgram, playerProgram, pipeProgram, Action.receive.injEq] at doing
        obtain ⟨rfl, rfl⟩ := doing
        exact playerAnswer_promised moderate i arrived
      | _ => simp [nodeProgram, playerProgram, pipeProgram] at doing
    | agent a =>
      cases place with
      | readFifo =>
        simp only [nodeProgram, agentProgram, Action.receive.injEq] at doing
        obtain ⟨rfl, rfl⟩ := doing
        exact arrived
      | readDown =>
        simp only [nodeProgram, agentProgram, pipeProgram, Action.receive.injEq] at doing
        obtain ⟨rfl, rfl⟩ := doing
        exact agentAnswer_promised moderate arrived
      | _ => simp [nodeProgram, agentProgram, pipeProgram] at doing

theorem start_kept (moderate : Moderate table) : Kept (fun _ => Promised) PromisedOn (start table) := by
  refine ⟨fun node => ?_, by simp [start]⟩
  cases node with
  | player i => exact ⟨⟨moderate.hp' i, moderate.atk i, moderate.atk' i⟩, moderate.hp i⟩
  | _ => trivial

theorem halted32 (now : Processes) (node : Node) :
    now.halted (nodeProgram32 table) node = now.halted (nodeProgram table) node := by
  unfold halted
  cases node <;> cases now.place _ <;> rfl

/-- The two programs do the same at every place that keeps the promises. -/
theorem machine_alike (moderate : Moderate table) {node : Node} {place : Local} (promised : Promised place) :
    nodeProgram32 table node place = nodeProgram table node place ∨
      ∃ channel next next', nodeProgram table node place = .receive channel next ∧
        nodeProgram32 table node place = .receive channel next' ∧
        ∀ st, PromisedOn channel st → next' st = next st := by
  cases node with
  | battle b =>
    cases place with
    | readRight l =>
      refine .inr ⟨_, _, _, rfl, rfl, fun st arrived => ?_⟩
      simp only [battleRound32_eq b promised arrived]
    | _ => exact .inl rfl
  | player i =>
    cases place with
    | readDown => exact .inr ⟨_, _, _, rfl, rfl, fun st arrived => playerAnswer32_eq moderate i arrived⟩
    | _ => exact .inl rfl
  | agent a =>
    cases place with
    | readDown => exact .inr ⟨_, _, _, rfl, rfl, fun st arrived => agentAnswer32_eq moderate arrived⟩
    | _ => exact .inl rfl

theorem machine_step (moderate : Moderate table) (now : Processes) (node : Node)
    (kept : Kept (fun _ => Promised) PromisedOn now) :
    now.step (nodeProgram32 table) node = now.step (nodeProgram table) node := by
  refine step_alike (halted32 now) ?_
  rcases machine_alike moderate (kept.places node) with same | ⟨channel, next, next', doing, doing', agree⟩
  · exact .inl same
  · exact .inr ⟨channel, next, next', doing, doing', fun entry member => agree _ (kept.channels channel entry member)⟩

theorem machine_runs (moderate : Moderate table) (labels : List Node) :
    run (step (nodeProgram32 table)) (start table) labels = run (step (nodeProgram table)) (start table) labels :=
  run_agree _ _ (Kept (fun _ => Promised) PromisedOn) (fun _ _ _ kept stepped => kept.step (node_contract moderate) stepped)
    (fun now node kept => machine_step moderate now node kept) _ labels (start_kept moderate)

def IsInt (value : Int) : Prop := intMin ≤ value ∧ value ≤ intMax

/-- A status that the machine can hold. -/
structure Held (status : Status) : Prop where
  hp : IsInt status.hp
  atk : IsInt status.atk
  battleEndedFlag : IsInt status.battleEndedFlag

theorem zero_int : IsInt 0 := by
  constructor <;> decide

theorem one_int : IsInt 1 := by
  constructor <;> decide

theorem Held.ended {status : Status} (held : Held status) : Held status.ended := ⟨held.hp, held.atk, one_int⟩

theorem Held.struck {status : Status} (held : Held status) (currentField : Attribute) (striker : Status) :
    Held (status.struck32 currentField striker) := ⟨int32_range _, held.atk, held.battleEndedFlag⟩

theorem battleRound32_held (b : BattleId) {l r : Status} (left : Held l) (right : Held r) :
    Held (battleRound32 b l r).1 ∧ Held (battleRound32 b l r).2.1 := by
  have left' : Held { l with currentBattleId := b.char } := ⟨left.hp, left.atk, left.battleEndedFlag⟩
  have right' : Held { r with currentBattleId := b.char } := ⟨right.hp, right.atk, right.battleEndedFlag⟩
  simp only [battleRound32]
  split
  · split
    · split
      · exact ⟨left'.struck _ _, right'.struck _ _⟩
      · exact ⟨(left'.struck _ _).ended, (right'.struck _ _).ended⟩
    · exact ⟨left'.ended, (right'.struck _ _).ended⟩
  · split
    · split
      · exact ⟨left'.struck _ _, right'.struck _ _⟩
      · exact ⟨(left'.struck _ _).ended, (right'.struck _ _).ended⟩
    · exact ⟨(left'.struck _ _).ended, right'.ended⟩

theorem half_int (value : Int) : IsInt ((int32 value).tdiv 2) := by
  obtain ⟨least, most⟩ := int32_range value
  simp only [IsInt, intMin, intMax] at least most ⊢
  rcases Int.le_total 0 (int32 value) with positive | negative
  · rw [Int.tdiv_eq_ediv_of_nonneg positive]
    omega
  · rw [← Int.neg_neg (int32 value), Int.neg_tdiv, Int.tdiv_eq_ediv_of_nonneg (by omega)]
    omega

/-- No process of the machine makes a number that is no int. -/
theorem machine_passes (initial : ∀ i, Held (playerStatus table i)) : Passes (nodeProgram32 table) Local.statuses Held where
  sends := by
    intro node place channel message next doing
    cases node with
    | battle b =>
      cases place <;>
        simp only [nodeProgram32, nodeProgram, battleProgram, reduceCtorEq, Action.send.injEq] at doing <;>
        simp [Local.statuses, ← doing.2.1]
    | player i =>
      cases place with
      | writeFifo target st =>
        cases target <;> simp_all [nodeProgram32, nodeProgram, playerProgram, Local.statuses]
      | _ => simp_all [nodeProgram32, nodeProgram, playerProgram, pipeProgram, Local.statuses]
    | agent a =>
      cases place <;> simp_all [nodeProgram32, nodeProgram, agentProgram, pipeProgram, Local.statuses]
  keeps := by
    intro node place next leads quiet st member
    cases node with
    | battle b =>
      cases place with
      | writeRight l r ending =>
        rw [show next = _ from leads] at member
        cases ending with
        | none => cases member
        | some last => exact member
      | waitLoser result =>
        rw [show next = _ from leads] at member
        split_ifs at member <;> exact member
      | writeWinner result winnerStatus =>
        rw [show next = _ from leads] at member
        split_ifs at member <;> exact List.mem_append_left [winnerStatus] member
      | writeParent result winnerStatus =>
        rw [show next = _ from leads] at member
        exact List.mem_append_left [winnerStatus] member
      | writeLeft l r ending | printWinner result | waitLast result =>
        rw [show next = _ from leads] at member
        exact member
      | readLeft | readRight _ | readWinner _ | readParent _ => exact absurd rfl (quiet _ _)
      | _ => cases leads
    | player i =>
      cases place with
      | writeFifo target currentPlayer =>
        cases target with
        | none => cases leads
        | some k =>
          rw [show next = _ from leads] at member
          cases member
      | writeUp currentPlayer =>
        rw [show next = _ from leads] at member
        cases member
      | readDown => exact absurd rfl (quiet _ _)
      | _ => cases leads
    | agent a =>
      cases place with
      | writeUp currentPlayer =>
        rw [show next = _ from leads] at member
        cases member
      | readFifo | readDown => exact absurd rfl (quiet _ _)
      | _ => cases leads
  receives := by
    intro node place channel next st doing held others made member
    cases node with
    | battle b =>
      cases place <;>
        simp only [nodeProgram32, nodeProgram, battleProgram, reduceCtorEq, Action.receive.injEq] at doing <;>
        obtain ⟨-, rfl⟩ := doing
      · rw [List.mem_singleton.mp member]
        exact held
      · rename_i l
        obtain ⟨left, right⟩ := battleRound32_held b (others l (List.mem_singleton_self l)) held
        simp only [Local.statuses, List.mem_cons, List.not_mem_nil, or_false] at member
        rcases member with rfl | rfl
        · exact left
        · exact right
      all_goals
        rename_i result
        rcases List.mem_append.mp (show made ∈ [result.left, result.right] ++ [st] from member) with before | last
        · exact others made before
        · rw [List.mem_singleton.mp last]
          exact held
    | player i =>
      cases place with
      | writeFifo target currentPlayer => cases target <;> simp [nodeProgram32, nodeProgram, playerProgram] at doing
      | readDown =>
        simp only [nodeProgram32, Action.receive.injEq] at doing
        obtain ⟨-, rfl⟩ := doing
        unfold playerAnswer32 at member
        split_ifs at member
        · rw [List.mem_singleton.mp member]
          exact ⟨half_int _, held.atk, zero_int⟩
        · cases member
        · cases member
        · rw [List.mem_singleton.mp member]
          exact ⟨(initial i).hp, held.atk, zero_int⟩
        · rw [List.mem_singleton.mp member]
          exact held
      | _ => simp [nodeProgram32, nodeProgram, playerProgram, pipeProgram] at doing
    | agent a =>
      cases place with
      | readFifo =>
        simp only [nodeProgram32, nodeProgram, agentProgram, Action.receive.injEq] at doing
        obtain ⟨-, rfl⟩ := doing
        rw [List.mem_singleton.mp member]
        exact held
      | readDown =>
        simp only [nodeProgram32, Action.receive.injEq] at doing
        obtain ⟨-, rfl⟩ := doing
        unfold agentAnswer32 at member
        split_ifs at member
        · cases member
        · rw [List.mem_singleton.mp member]
          exact ⟨half_int _, held.atk, zero_int⟩
        · rw [List.mem_singleton.mp member]
          exact held
      | _ => simp [nodeProgram32, nodeProgram, agentProgram, pipeProgram] at doing

theorem start_clean (initial : ∀ i, Held (playerStatus table i)) : Clean Local.statuses Held (start table) := by
  refine ⟨fun node st member => ?_, by simp [start]⟩
  cases node with
  | player i =>
    rw [List.mem_singleton.mp member]
    exact initial i
  | _ => cases member

theorem moderate_held (moderate : Moderate table) (flags : ∀ i, (table i).battleEndedFlag = 0) (i : Fin 8) :
    Held (playerStatus table i) := by
  have least := moderate.hp i
  have most := moderate.hp' i
  have strong := moderate.atk i
  have most' := moderate.atk' i
  have flag := flags i
  constructor <;> simp only [IsInt, intMin, intMax, playerStatus] <;> omega

theorem held_run (moderate : Moderate table) (flags : ∀ i, (table i).battleEndedFlag = 0) {labels : List Node}
    {now : Processes} (ran : run (step (nodeProgram table)) (start table) labels = some now) :
    Clean Local.statuses Held now := by
  rw [← machine_runs moderate] at ran
  have initial := moderate_held moderate flags
  exact kept_run (machine_passes initial).contract (start_clean initial) ran

/-- With moderate numbers the exact integers are those of the machine: all runs are the same, and no
status anywhere holds a number that is no int. -/
theorem machine_exact (moderate : Moderate table) (flags : ∀ i, (table i).battleEndedFlag = 0) (labels : List Node) :
    run (step (nodeProgram32 table)) (start table) labels = run (step (nodeProgram table)) (start table) labels ∧
      ∀ now, run (step (nodeProgram table)) (start table) labels = some now →
        (∀ node, ∀ st ∈ (now.place node).statuses, Held st) ∧
          ∀ channel, ∀ entry ∈ now.sent channel, Held entry.2 := by
  refine ⟨machine_runs moderate labels, fun now ran => ?_⟩
  have clean := held_run moderate flags ran
  exact ⟨clean.places, clean.channels⟩

theorem sample_moderate : Moderate sample := ⟨sample_healthy, by decide, by decide⟩

theorem machine_exact_sample : ∃ labels final,
    run (step (nodeProgram32 sample)) (start sample) labels = some final ∧
      (∀ node, final.step (nodeProgram sample) node = none) ∧
      ∀ channel, ∀ entry ∈ final.sent channel, Held entry.2 := by
  obtain ⟨labels, final, ran, stuck⟩ := sample_complete
  obtain ⟨same, ints⟩ := machine_exact sample_moderate (by decide) labels
  exact ⟨labels, final, same.trans ran, stuck, (ints final ran).2⟩

/-- From the bytes of the status file to the champion: whatever the layout of the file and the schedule,
the machine's processes come to an end, and A prints the champion of the table that was written. -/
theorem file_champion (file : StatusFile) (moderate : Moderate file.table)
    (flags : ∀ i, (file.table i).battleEndedFlag = 0) :
    ∃ table, readTable file.text = some table ∧ ∀ labels now,
      run (step (nodeProgram32 table)) (start table) labels = some now →
        (∃ rest final, run (step (nodeProgram32 table)) now rest = some final ∧
          ∀ node, final.halted (nodeProgram32 table) node = true) ∧
        ((∀ node, now.step (nodeProgram32 table) node = none) → ∃ result, reference file.table .A = some result ∧
          now.output (.battle .A) = [result.winner.realPlayerId]) := by
  refine ⟨file.table, readTable_text file, fun labels now ran => ?_⟩
  have same := machine_runs moderate
  obtain ⟨whole, final, results, complete, known, every⟩ := runs_complete moderate.toHealthy
  obtain rfl := known flags
  have exact_ := ran
  rw [same] at exact_
  obtain ⟨rest, goes, -⟩ := every labels now exact_
  have whole := (run_append ..).mpr ⟨now, exact_, goes⟩
  rw [← same] at whole
  obtain ⟨middle, went, goes'⟩ := (run_append ..).mp whole
  obtain rfl := Option.some.inj (ran.symm.trans went)
  refine ⟨⟨rest, final, goes', fun node => (halted32 final node).trans (complete.halted node)⟩, fun stuck => ?_⟩
  obtain rfl := run_stuck goes' stuck
  exact complete.printed exact_

-- The lines of the shipped file, with one blank between two numbers.
def sampleLine (hp atk : Number) (buf : CStr) (currentBattleId : UInt8) (flag : Number) (word : IsWord buf)
    (string : 0 ∉ buf) (short : buf.length < bufSize) (seen : isSpace currentBattleId = false) : StatusLine :=
  ⟨hp, .space, atk, .space, buf, .space, currentBattleId, .space, flag, word, string, short, seen⟩

def sampleFile : StatusFile :=
  let line : StatusLine := sampleLine ⟨ofChars ['7'], by decide, by decide⟩ ⟨ofChars ['2'], by decide, by decide⟩
    (ofChars ['F', 'I', 'R', 'E']) (ascii 'G') ⟨ofChars ['0'], by decide, by decide⟩
    ⟨by decide, by simp [ofChars, ascii, isSpace]⟩ (by decide) (by decide) (by decide)
  ⟨[], line, List.replicate 7 (.newline, line), [10], List.forall_mem_nil _, rfl, blank_newline⟩

theorem file_champion_sample : ∃ table, readTable sampleFile.text = some table ∧
    ∃ rest final, run (step (nodeProgram32 table)) (start table) rest = some final ∧
      ∀ node, final.halted (nodeProgram32 table) node = true := by
  obtain ⟨table, read, every⟩ := file_champion sampleFile ⟨⟨by decide, by decide⟩, by decide, by decide⟩ (by decide)
  exact ⟨table, read, (every [] (start table) rfl).1⟩

end SPHomework.Tournament
