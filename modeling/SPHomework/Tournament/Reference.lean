import SPHomework.Tournament.Fight

set_option autoImplicit false

/-!
# The reference

The tournament without processes: the table `btl` evaluated from below, one battle
after the other.
-/

namespace SPHomework.Tournament

-- The battles, each after those that its contestants come from.
def order : List BattleId := [.G, .H, .I, .J, .D, .E, .B, .M, .N, .K, .L, .F, .C, .A]

/-- The battle whose loser enters the lower bracket at the agent. -/
def slot : Fin 7 → BattleId
  | 0 => .G | 1 => .I | 2 => .D | 3 => .H | 4 => .J | 5 => .E | 6 => .B

def Result.winner (result : Result) : Status := if 0 < result.left.hp then result.left else result.right

def Result.loser (result : Result) : Status := if 0 < result.left.hp then result.right else result.left

def entrant (table : Table) (results : BattleId → Option Result) : Node → Option Status
  | .player i => some (playerStatus table i)
  | .agent a => (results (slot a)).map fun result => reenters table result.loser
  | .battle b => (results b).map fun result => movesUp table result.winner

def evaluate (table : Table) (results : BattleId → Option Result) (b : BattleId) :
    BattleId → Option Result :=
  Function.update results b (do
    let leftPlayer ← entrant table results (child b .left)
    let rightPlayer ← entrant table results (child b .right)
    fight id b (roundsFor table leftPlayer) leftPlayer rightPlayer)

def reference (table : Table) : BattleId → Option Result :=
  order.foldl (evaluate table) fun _ => none

-- The if-chain of the players agrees with the places of the agents in the table.
theorem agentId_slot (b : BattleId) :
    agentId b.char = none ∧ (∀ a, slot a ≠ b) ∨ ∃ a, slot a = b ∧ agentId b.char = some (agentNumber a) := by
  revert b
  decide

theorem agentId_iff (b : BattleId) (a : Fin 7) : agentId b.char = some (agentNumber a) ↔ slot a = b := by
  revert b a
  decide

theorem slot_injective (a a' : Fin 7) (same : slot a = slot a') : a = a' := by
  revert a a'
  decide

theorem Decided.winner {b : BattleId} {l r : Status} {side : Side} {result : Result}
    (decided : Decided b l r side result) : result.winner = result.status side := by
  have alive := decided.alive
  have down := decided.down
  cases side with
  | left => simp_all [Result.winner, Result.status, Side.other]
  | right => simp_all [Result.winner, Result.status, Side.other]

theorem Decided.loser {b : BattleId} {l r : Status} {side : Side} {result : Result}
    (decided : Decided b l r side result) : result.loser = result.status side.other := by
  have alive := decided.alive
  have down := decided.down
  cases side with
  | left => simp_all [Result.loser, Result.status, Side.other]
  | right => simp_all [Result.loser, Result.status, Side.other]

theorem fight_plain (table : Table) (b : BattleId) (rounds : Nat) {l r : Status} (fit : Fit l) (fit' : Fit r)
    (plain : l.battleEndedFlag = 0) (plain' : r.battleEndedFlag = 0) :
    fight (echo table) b rounds l r = fight id b rounds l r := by
  induction rounds generalizing l r with
  | zero => rfl
  | succ rounds ih =>
    rcases battleRound_cases b fit fit' with ⟨l', r', round, left, right⟩ | ⟨result, side, round, -⟩
    · have flag : l'.battleEndedFlag = 0 := by
        rw [left.same]
        exact plain
      have flag' : r'.battleEndedFlag = 0 := by
        rw [right.same]
        exact plain'
      have unflagged : echo table l' = l' := echo_unflagged table (by omega)
      have unflagged' : echo table r' = r' := echo_unflagged table (by omega)
      simp only [fight, round, unflagged, unflagged', id]
      exact ih (left.fit fit) (right.fit fit') flag flag'
    · simp [fight, round]

end SPHomework.Tournament
