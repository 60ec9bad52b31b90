import Mathlib.Order.Basic
import Mathlib.Tactic.SplitIfs
import SPHomework.Tournament.Bracket

set_option autoImplicit false

/-!
# A fight

The loop of `battle.c` round by round, and the changes of a status between two
battles. The numbers are exact integers.
-/

namespace SPHomework.Tournament

structure Status where
  realPlayerId : Fin 8
  hp : Int
  atk : Int
  attr : Attribute
  currentBattleId : Char
  battleEndedFlag : Int
  deriving DecidableEq

-- A line of `player_status.txt`.
structure Row where
  hp : Int
  atk : Int
  buf : List Char
  currentBattleId : Char
  battleEndedFlag : Int

abbrev Table := Fin 8 → Row

def playerStatus (table : Table) (i : Fin 8) : Status where
  realPlayerId := i
  hp := (table i).hp
  atk := (table i).atk
  attr := if (table i).buf.head? = some 'F' then .fire else if (table i).buf.head? = some 'G' then .grass else .water
  currentBattleId := (table i).currentBattleId
  battleEndedFlag := (table i).battleEndedFlag

def damage (currentField attr : Attribute) (atk : Int) : Int :=
  if attr = currentField then atk * 2 else atk

def Status.struck (target : Status) (currentField : Attribute) (striker : Status) : Status :=
  { target with hp := target.hp - damage currentField striker.attr striker.atk }

def Status.ended (status : Status) : Status := { status with battleEndedFlag := 1 }

/-- What a battle keeps of its end: the winner, and the sides that `winner_id`, `winner_pid`,
`winnerPipe` and the call of `waitpid` are about. -/
structure Ending where
  winner : Fin 8
  winnerId : Side
  winnerPid : Side
  winnerPipe : Side
  waited : Side
  deriving DecidableEq

-- One round of the battle loop: both outputs, and the end if there is one.
def battleRound (b : BattleId) (leftPlayer rightPlayer : Status) : Status × Status × Option Ending :=
  let leftOutput := { leftPlayer with currentBattleId := b.char }
  let rightOutput := { rightPlayer with currentBattleId := b.char }
  if leftOutput.hp < rightOutput.hp ∨
      leftOutput.hp = rightOutput.hp ∧ leftOutput.realPlayerId < rightOutput.realPlayerId then
    let rightOutput := rightOutput.struck (field b) leftOutput
    if 0 < rightOutput.hp then
      let leftOutput := leftOutput.struck (field b) rightOutput
      if 0 < leftOutput.hp then (leftOutput, rightOutput, none)
      else (leftOutput.ended, rightOutput.ended, some {
        winner := rightOutput.realPlayerId
        winnerId := .right
        winnerPid := .right
        winnerPipe := .right
        waited := .left })
    else (leftOutput.ended, rightOutput.ended, some {
      winner := leftOutput.realPlayerId
      winnerId := .left
      winnerPid := .left
      winnerPipe := .left
      waited := .right })
  else
    let leftOutput := leftOutput.struck (field b) rightOutput
    if 0 < leftOutput.hp then
      let rightOutput := rightOutput.struck (field b) leftOutput
      if 0 < rightOutput.hp then (leftOutput, rightOutput, none)
      else (leftOutput.ended, rightOutput.ended, some {
        winner := leftOutput.realPlayerId
        winnerId := .left
        winnerPid := .left
        winnerPipe := .left
        waited := .right })
    else (leftOutput.ended, rightOutput.ended, some {
      winner := rightOutput.realPlayerId
      winnerId := .right
      winnerPid := .right
      winnerPipe := .right
      waited := .left })

structure Result where
  left : Status
  right : Status
  ending : Ending
  deriving DecidableEq

/-- The loop, when the children answer each round with `echo`. -/
def fight (echo : Status → Status) (b : BattleId) : Nat → Status → Status → Option Result
  | 0, _, _ => none
  | rounds + 1, leftPlayer, rightPlayer =>
    match battleRound b leftPlayer rightPlayer with
    | (left, right, some ending) => some ⟨left, right, ending⟩
    | (left, right, none) => fight echo b rounds (echo left) (echo right)

def Ending.of (winner : Fin 8) (side : Side) : Ending := ⟨winner, side, side, side, side.other⟩

def Result.status (result : Result) : Side → Status
  | .left => result.left
  | .right => result.right

structure Fit (status : Status) : Prop where
  alive : 0 < status.hp
  strong : 0 < status.atk

theorem damage_pos (currentField attr : Attribute) {atk : Int} (strong : 0 < atk) :
    0 < damage currentField attr atk := by
  unfold damage
  split_ifs <;> omega

structure Continues (b : BattleId) (before after : Status) : Prop where
  alive : 0 < after.hp
  less : after.hp < before.hp
  same : after = { before with hp := after.hp, currentBattleId := b.char }

theorem Continues.fit {b : BattleId} {before after : Status} (continues : Continues b before after)
    (fit : Fit before) : Fit after := by
  have same := congrArg Status.atk continues.same
  exact ⟨continues.alive, same ▸ fit.strong⟩

/-- The last outputs: flagged, with one side down, and all that the battle keeps is about the other. -/
structure Decided (b : BattleId) (l r : Status) (side : Side) (result : Result) : Prop where
  ending : result.ending = Ending.of (result.status side).realPlayerId side
  left : result.left =
    { l with hp := result.left.hp, currentBattleId := b.char, battleEndedFlag := 1 }
  right : result.right =
    { r with hp := result.right.hp, currentBattleId := b.char, battleEndedFlag := 1 }
  alive : 0 < (result.status side).hp
  down : (result.status side.other).hp ≤ 0

theorem Decided.status {b : BattleId} {l r : Status} {side : Side} {result : Result}
    (decided : Decided b l r side result) (either : Side) :
    (result.status either).battleEndedFlag = 1 ∧ (result.status either).currentBattleId = b.char := by
  cases either with
  | left => exact ⟨by rw [Result.status, decided.left], by rw [Result.status, decided.left]⟩
  | right => exact ⟨by rw [Result.status, decided.right], by rw [Result.status, decided.right]⟩

theorem Decided.strong {b : BattleId} {l r : Status} {side : Side} {result : Result}
    (decided : Decided b l r side result) (fit : Fit l) (fit' : Fit r) (either : Side) :
    0 < (result.status either).atk := by
  cases either with
  | left =>
    rw [Result.status, decided.left]
    exact fit.strong
  | right =>
    rw [Result.status, decided.right]
    exact fit'.strong

theorem battleRound_le (b : BattleId) {l r : Status} (fit : Fit l) (fit' : Fit r) :
    (battleRound b l r).1.hp ≤ l.hp ∧ (battleRound b l r).2.1.hp ≤ r.hp := by
  have hurt := damage_pos (field b) l.attr fit.strong
  have hurt' := damage_pos (field b) r.attr fit'.strong
  simp only [battleRound]
  split
  · split
    · split <;> simp only [Status.struck, Status.ended] <;> omega
    · simp only [Status.struck, Status.ended]
      omega
  · split
    · split <;> simp only [Status.struck, Status.ended] <;> omega
    · simp only [Status.struck, Status.ended]
      omega

theorem battleRound_cases (b : BattleId) {l r : Status} (fit : Fit l) (fit' : Fit r) :
    (∃ l' r', battleRound b l r = (l', r', none) ∧ Continues b l l' ∧ Continues b r r') ∨
      ∃ result side, battleRound b l r = (result.left, result.right, some result.ending) ∧
        Decided b l r side result := by
  have hurt := damage_pos (field b) l.attr fit.strong
  have hurt' := damage_pos (field b) r.attr fit'.strong
  have alive := fit.alive
  have alive' := fit'.alive
  -- who strikes first, and whether the first and the second strike are survived
  simp only [battleRound]
  split
  · split
    · split
      · rename_i first second
        simp only [Status.struck] at first second
        refine .inl ⟨_, _, rfl, ⟨second, ?_, rfl⟩, ⟨first, ?_, rfl⟩⟩ <;> simp only [Status.struck] <;> omega
      · rename_i first second
        exact .inr ⟨⟨_, _, _⟩, .right, rfl, rfl, rfl, rfl, first, not_lt.mp second⟩
    · rename_i first
      exact .inr ⟨⟨_, _, _⟩, .left, rfl, rfl, rfl, rfl, alive, not_lt.mp first⟩
  · split
    · split
      · rename_i first second
        simp only [Status.struck] at first second
        refine .inl ⟨_, _, rfl, ⟨first, ?_, rfl⟩, ⟨second, ?_, rfl⟩⟩ <;> simp only [Status.struck] <;> omega
      · rename_i first second
        exact .inr ⟨⟨_, _, _⟩, .left, rfl, rfl, rfl, rfl, first, not_lt.mp second⟩
    · rename_i first
      exact .inr ⟨⟨_, _, _⟩, .right, rfl, rfl, rfl, rfl, alive', not_lt.mp first⟩

def movesUp (table : Table) (status : Status) : Status :=
  { status with
    hp := (status.hp + (playerStatus table status.realPlayerId).hp) / 2
    battleEndedFlag := 0 }

def reenters (table : Table) (status : Status) : Status :=
  { status with hp := (playerStatus table status.realPlayerId).hp, battleEndedFlag := 0 }

/-- The answer to a status of somebody alive: a flag counts as a win. -/
def echo (table : Table) (status : Status) : Status :=
  if status.battleEndedFlag = 1 then movesUp table status else status

structure Healthy (table : Table) : Prop where
  hp : ∀ i, 1 ≤ (table i).hp
  atk : ∀ i, 1 ≤ (table i).atk

theorem Healthy.fit {table : Table} (healthy : Healthy table) (i : Fin 8) : Fit (playerStatus table i) := by
  have hp := healthy.hp i
  have atk := healthy.atk i
  exact ⟨by simp only [playerStatus]; omega, by simp only [playerStatus]; omega⟩

theorem movesUp_fit {table : Table} (healthy : Healthy table) {status : Status} (fit : Fit status) :
    Fit (movesUp table status) := by
  have alive := fit.alive
  have initial := (healthy.fit status.realPlayerId).alive
  refine ⟨?_, fit.strong⟩
  simp only [movesUp]
  omega

theorem reenters_fit {table : Table} (healthy : Healthy table) {status : Status} (strong : 0 < status.atk) :
    Fit (reenters table status) :=
  ⟨(healthy.fit status.realPlayerId).alive, strong⟩

theorem echo_fit {table : Table} (healthy : Healthy table) {status : Status} (fit : Fit status) :
    Fit (echo table status) := by
  unfold echo
  split_ifs
  · exact movesUp_fit healthy fit
  · exact fit

theorem echo_id (table : Table) (status : Status) :
    (echo table status).realPlayerId = status.realPlayerId := by
  unfold echo
  split_ifs <;> rfl

theorem echo_unflagged (table : Table) {status : Status} (unflagged : status.battleEndedFlag ≠ 1) :
    echo table status = status := if_neg unflagged

theorem echo_flag (table : Table) (status : Status) : (echo table status).battleEndedFlag ≠ 1 := by
  unfold echo
  split_ifs with flag
  · simp [movesUp]
  · exact flag

theorem fight_ends (table : Table) (b : BattleId) (rounds : Nat) {l r : Status} (fit : Fit l) (fit' : Fit r)
    (plain : l.battleEndedFlag ≠ 1) (plain' : r.battleEndedFlag ≠ 1) (enough : l.hp ≤ rounds) :
    ∃ result, fight (echo table) b rounds l r = some result := by
  induction rounds generalizing l r with
  | zero =>
    have alive := fit.alive
    omega
  | succ rounds ih =>
    rcases battleRound_cases b fit fit' with ⟨l', r', round, left, right⟩ | ⟨result, side, round, -⟩
    · have flag : l'.battleEndedFlag ≠ 1 := by
        rw [left.same]
        exact plain
      have flag' : r'.battleEndedFlag ≠ 1 := by
        rw [right.same]
        exact plain'
      have less := left.less
      obtain ⟨result, done⟩ := ih (left.fit fit) (right.fit fit') flag flag' (by omega)
      refine ⟨result, ?_⟩
      simp only [fight, round, echo_unflagged table flag, echo_unflagged table flag']
      exact done
    · exact ⟨result, by simp [fight, round]⟩

-- The outputs of the last round are those of the whole battle.
theorem fight_decided {table : Table} (healthy : Healthy table) (b : BattleId) (rounds : Nat) {l r : Status}
    (fit : Fit l) (fit' : Fit r) {result : Result}
    (fought : fight (echo table) b rounds l r = some result) : ∃ side, Decided b l r side result := by
  induction rounds generalizing l r with
  | zero => cases fought
  | succ rounds ih =>
    rcases battleRound_cases b fit fit' with ⟨l', r', round, left, right⟩ | ⟨last, side, round, decided⟩
    · simp only [fight, round] at fought
      obtain ⟨side, decided⟩ := ih (echo_fit healthy (left.fit fit)) (echo_fit healthy (right.fit fit')) fought
      -- an answer changes the HP and the flag only
      refine ⟨side, decided.ending, ?_, ?_, decided.alive, decided.down⟩
      · rw [decided.left, left.same]
        unfold echo
        split_ifs <;> rfl
      · rw [decided.right, right.same]
        unfold echo
        split_ifs <;> rfl
    · simp only [fight, round, Option.some.injEq] at fought
      exact ⟨side, fought ▸ decided⟩

-- Rounds that are enough for any contestants.
def roundsFor (table : Table) (leftPlayer : Status) : Nat :=
  (leftPlayer.hp + (playerStatus table leftPlayer.realPlayerId).hp).toNat + 1

theorem fight_total {table : Table} (healthy : Healthy table) (b : BattleId) {l r : Status} (fit : Fit l)
    (fit' : Fit r) : ∃ result, fight (echo table) b (roundsFor table l) l r = some result := by
  have initial := (healthy.fit l.realPlayerId).alive
  -- a flag from the table can heal a contestant once, in the answer to the first round
  rcases battleRound_cases b fit fit' with ⟨l', r', round, left, right⟩ | ⟨result, side, round, -⟩
  · -- after the first round the flags of the table are gone
    have alive := left.alive
    have less := left.less
    have same : l'.realPlayerId = l.realPlayerId := by rw [left.same]
    have bound : (echo table l').hp ≤ l.hp + (playerStatus table l.realPlayerId).hp := by
      unfold echo
      split_ifs
      · simp only [movesUp, same]
        omega
      · omega
    obtain ⟨result, done⟩ := fight_ends table b
      (l.hp + (playerStatus table l.realPlayerId).hp).toNat (echo_fit healthy (left.fit fit))
      (echo_fit healthy (right.fit fit')) (echo_flag table l') (echo_flag table r') (by omega)
    exact ⟨result, by simpa [roundsFor, fight, round] using done⟩
  · exact ⟨result, by simp [roundsFor, fight, round]⟩

end SPHomework.Tournament
