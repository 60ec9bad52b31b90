import SPHomework.Tournament.Fight

set_option autoImplicit false

/-!
# The messages of a battle

The battle loop with all the statuses it sends to its children. It ends with
one winner, and it does not matter who is the left contestant.
-/

namespace SPHomework.Tournament

/-- The loop of `battle.c`: the outputs of each round, and what is kept of the end. -/
def battleLoop (echo : Status → Status) (b : BattleId) :
    Nat → Status → Status → Option (List (Status × Status) × Ending)
  | 0, _, _ => none
  | rounds + 1, leftPlayer, rightPlayer =>
    match battleRound b leftPlayer rightPlayer with
    | (left, right, some ending) => some ([(left, right)], ending)
    | (left, right, none) =>
      (battleLoop echo b rounds (echo left) (echo right)).map fun later =>
        ((left, right) :: later.1, later.2)

-- The last of the messages are the outputs of the fight.
theorem battleLoop_fight (echo : Status → Status) (b : BattleId) (rounds : Nat) (l r : Status)
    {sent : List (Status × Status)} {ending : Ending} (fought : battleLoop echo b rounds l r = some (sent, ending)) :
    ∃ result, fight echo b rounds l r = some result ∧ result.ending = ending ∧
      sent.getLast? = some (result.left, result.right) := by
  induction rounds generalizing l r sent with
  | zero => cases fought
  | succ rounds ih =>
    obtain ⟨left, right, ending', round⟩ : ∃ left right ending', battleRound b l r = (left, right, ending') :=
      ⟨_, _, _, rfl⟩
    cases ending' with
    | some kept =>
      simp only [battleLoop, round, Option.some.injEq, Prod.mk.injEq] at fought
      obtain ⟨rfl, rfl⟩ := fought
      exact ⟨⟨left, right, kept⟩, by simp [fight, round], rfl, rfl⟩
    | none =>
      simp only [battleLoop, round, Option.map_eq_some_iff, Prod.mk.injEq] at fought
      obtain ⟨⟨later, kept⟩, continued, rfl, rfl⟩ := fought
      obtain ⟨result, done, same, last⟩ := ih _ _ continued
      refine ⟨result, by simpa [fight, round] using done, same, ?_⟩
      rw [List.getLast?_cons, last]
      rfl

/-- The rounds before the last: both are alive, and send on the flag that they came with. -/
structure Goes (l r : Status) (pair : Status × Status) : Prop where
  left : 0 < pair.1.hp ∧ pair.1.hp ≤ l.hp ∧ pair.1.battleEndedFlag = l.battleEndedFlag
  right : 0 < pair.2.hp ∧ pair.2.hp ≤ r.hp ∧ pair.2.battleEndedFlag = r.battleEndedFlag

/-- What a battle comes to, with children that send back what they get. -/
structure Ends (b : BattleId) (l r : Status) (side : Side) (earlier : List (Status × Status))
    (last : Status × Status) (ending : Ending) : Prop where
  earlier : ∀ pair ∈ earlier, Goes l r pair
  flags : last.1.battleEndedFlag = 1 ∧ last.2.battleEndedFlag = 1
  ids : last.1.currentBattleId = b.char ∧ last.2.currentBattleId = b.char
  alive : 1 ≤ (side.pick last.1 last.2).hp
  bounded : (side.pick last.1 last.2).hp ≤ (side.pick l r).hp
  down : (side.other.pick last.1 last.2).hp ≤ 0
  ending : ending = Ending.of (side.pick l r).realPlayerId side

theorem Ends.later {b : BattleId} {l r l' r' : Status} {side : Side} {earlier : List (Status × Status)}
    {last : Status × Status} {ending : Ending} (left : Continues b l l') (right : Continues b r r')
    (ends : Ends b l' r' side earlier last ending) : Ends b l r side ((l', r') :: earlier) last ending := by
  have less := left.less
  have less' := right.less
  have flag : l'.battleEndedFlag = l.battleEndedFlag := by rw [left.same]
  have flag' : r'.battleEndedFlag = r.battleEndedFlag := by rw [right.same]
  have id : l'.realPlayerId = l.realPlayerId := by rw [left.same]
  have id' : r'.realPlayerId = r.realPlayerId := by rw [right.same]
  refine ⟨?_, ends.flags, ends.ids, ends.alive, ?_, ends.down, ?_⟩
  · intro pair member
    rcases List.mem_cons.mp member with rfl | further
    · exact ⟨⟨left.alive, less.le, flag⟩, right.alive, less'.le, flag'⟩
    · obtain ⟨⟨alive, bound, same⟩, alive', bound', same'⟩ := ends.earlier pair further
      exact ⟨⟨alive, bound.trans less.le, same.trans flag⟩, alive', bound'.trans less'.le, same'.trans flag'⟩
  · have bounded := ends.bounded
    cases side <;> simp only [Side.pick] at bounded ⊢ <;> omega
  · rw [ends.ending]
    cases side <;> simp only [Side.pick, id, id']

theorem Decided.ends {b : BattleId} {l r : Status} {side : Side} {result : Result} (fit : Fit l)
    (fit' : Fit r) (round : battleRound b l r = (result.left, result.right, some result.ending))
    (decided : Decided b l r side result) :
    Ends b l r side [] (result.left, result.right) result.ending := by
  have bounded := battleRound_le b fit fit'
  rw [round] at bounded
  have alive := decided.alive
  have down := decided.down
  have flagged := decided.status
  have ending := decided.ending
  have id : result.left.realPlayerId = l.realPlayerId := by rw [decided.left]
  have id' : result.right.realPlayerId = r.realPlayerId := by rw [decided.right]
  refine ⟨fun pair none => (by cases none), ⟨(flagged .left).1, (flagged .right).1⟩,
    ⟨(flagged .left).2, (flagged .right).2⟩, ?_, ?_, ?_, ?_⟩
  · cases side <;> exact alive
  · cases side
    · exact bounded.1
    · exact bounded.2
  · cases side <;> exact down
  · rw [ending]
    cases side
    · rw [Result.status, id, Side.pick]
    · rw [Result.status, id', Side.pick]

/-- A battle of two living contestants ends, and all that it keeps is about the one who is alive. -/
theorem battle_has_one_winner (b : BattleId) (l r : Status) (fit : Fit l) (fit' : Fit r) :
    ∃ rounds side earlier last ending,
      battleLoop id b rounds l r = some (earlier ++ [last], ending) ∧ Ends b l r side earlier last ending := by
  -- each round that is not the last takes HP from the left contestant
  obtain ⟨rounds, enough⟩ : ∃ rounds : Nat, l.hp ≤ rounds := ⟨l.hp.toNat, by omega⟩
  refine ⟨rounds, ?_⟩
  induction rounds generalizing l r with
  | zero =>
    have alive := fit.alive
    omega
  | succ rounds ih =>
    rcases battleRound_cases b fit fit' with ⟨l', r', round, left, right⟩ | ⟨result, side, round, decided⟩
    · have less := left.less
      obtain ⟨side, earlier, last, ending, fought, ends⟩ :=
        ih l' r' (left.fit fit) (right.fit fit') (by omega)
      refine ⟨side, (l', r') :: earlier, last, ending, ?_, ends.later left right⟩
      simp only [battleLoop, round, id, fought, Option.map_some, List.cons_append]
    · refine ⟨side, [], (result.left, result.right), result.ending, ?_, decided.ends fit fit' round⟩
      simp only [battleLoop, round, List.nil_append]

theorem battle_has_one_winner_pair : ∃ rounds side earlier last ending,
    battleLoop id .C rounds ⟨0, 3, 1, .water, 'C', 0⟩ ⟨1, 3, 1, .fire, 'C', 0⟩ =
      some (earlier ++ [last], ending) ∧
    Ends .C ⟨0, 3, 1, .water, 'C', 0⟩ ⟨1, 3, 1, .fire, 'C', 0⟩ side earlier last ending :=
  battle_has_one_winner .C ⟨0, 3, 1, .water, 'C', 0⟩ ⟨1, 3, 1, .fire, 'C', 0⟩ ⟨by decide, by decide⟩
    ⟨by decide, by decide⟩

-- A contestant that comes with the flag set: the flag is in the message of the first round already.
theorem battle_passes_flag_on : ∃ sent ending,
    battleLoop id .C 5 ⟨0, 3, 1, .fire, 'C', 1⟩ ⟨1, 3, 1, .fire, 'C', 0⟩ = some (sent, ending) ∧
    sent.length = 3 ∧ ¬ ∀ pair ∈ sent.dropLast, pair.1.battleEndedFlag = 0 ∧ pair.2.battleEndedFlag = 0 :=
  ⟨_, _, rfl, by decide, by decide⟩

def Ending.mirror (ending : Ending) : Ending where
  winner := ending.winner
  winnerId := ending.winnerId.other
  winnerPid := ending.winnerPid.other
  winnerPipe := ending.winnerPipe.other
  waited := ending.waited.other

-- A round, whatever a strike does.
def battleRoundBy (strike : Status → Attribute → Status → Status) (b : BattleId) (leftPlayer rightPlayer : Status) :
    Status × Status × Option Ending :=
  let leftOutput := { leftPlayer with currentBattleId := b.char }
  let rightOutput := { rightPlayer with currentBattleId := b.char }
  if leftOutput.hp < rightOutput.hp ∨
      leftOutput.hp = rightOutput.hp ∧ leftOutput.realPlayerId < rightOutput.realPlayerId then
    let rightOutput := strike rightOutput (field b) leftOutput
    if 0 < rightOutput.hp then
      let leftOutput := strike leftOutput (field b) rightOutput
      if 0 < leftOutput.hp then (leftOutput, rightOutput, none)
      else (leftOutput.ended, rightOutput.ended, some (.of rightOutput.realPlayerId .right))
    else (leftOutput.ended, rightOutput.ended, some (.of leftOutput.realPlayerId .left))
  else
    let leftOutput := strike leftOutput (field b) rightOutput
    if 0 < leftOutput.hp then
      let rightOutput := strike rightOutput (field b) leftOutput
      if 0 < rightOutput.hp then (leftOutput, rightOutput, none)
      else (leftOutput.ended, rightOutput.ended, some (.of leftOutput.realPlayerId .left))
    else (leftOutput.ended, rightOutput.ended, some (.of rightOutput.realPlayerId .right))

-- The two halves of the loop do the same for the one who strikes first.
theorem battleRoundBy_mirror (strike : Status → Attribute → Status → Status) (b : BattleId) (l r : Status)
    (different : l.realPlayerId ≠ r.realPlayerId) :
    battleRoundBy strike b r l =
      ((battleRoundBy strike b l r).2.1, (battleRoundBy strike b l r).1,
        (battleRoundBy strike b l r).2.2.map Ending.mirror) := by
  have order : (r.hp < l.hp ∨ r.hp = l.hp ∧ r.realPlayerId < l.realPlayerId) ↔
      ¬ (l.hp < r.hp ∨ l.hp = r.hp ∧ l.realPlayerId < r.realPlayerId) := by
    omega
  by_cases first : l.hp < r.hp ∨ l.hp = r.hp ∧ l.realPlayerId < r.realPlayerId
  · simp only [battleRoundBy, order, first, not_true_eq_false, if_true, if_false]
    split
    · split <;> rfl
    · rfl
  · simp only [battleRoundBy, order, first, not_false_eq_true, if_true, if_false]
    split
    · split <;> rfl
    · rfl

theorem battleRound_mirror (b : BattleId) (l r : Status) (different : l.realPlayerId ≠ r.realPlayerId) :
    battleRound b r l =
      ((battleRound b l r).2.1, (battleRound b l r).1, (battleRound b l r).2.2.map Ending.mirror) :=
  battleRoundBy_mirror Status.struck b l r different

theorem battleRound_id (b : BattleId) (l r : Status) :
    (battleRound b l r).1.realPlayerId = l.realPlayerId ∧
      (battleRound b l r).2.1.realPlayerId = r.realPlayerId := by
  simp only [battleRound]
  split
  · split
    · split <;> exact ⟨rfl, rfl⟩
    · exact ⟨rfl, rfl⟩
  · split
    · split <;> exact ⟨rfl, rfl⟩
    · exact ⟨rfl, rfl⟩

theorem battleLoop_mirror (echo : Status → Status)
    (keeps : ∀ status, (echo status).realPlayerId = status.realPlayerId) (b : BattleId) (rounds : Nat)
    (l r : Status) (different : l.realPlayerId ≠ r.realPlayerId) :
    battleLoop echo b rounds r l =
      (battleLoop echo b rounds l r).map fun record => (record.1.map Prod.swap, record.2.mirror) := by
  induction rounds generalizing l r with
  | zero => rfl
  | succ rounds ih =>
    obtain ⟨left, right, ending, round⟩ : ∃ left right ending, battleRound b l r = (left, right, ending) :=
      ⟨_, _, _, rfl⟩
    have mirrored := battleRound_mirror b l r different
    have ids := battleRound_id b l r
    rw [round] at mirrored ids
    cases ending with
    | some kept => simp [battleLoop, round, mirrored]
    | none =>
      have apart : (echo left).realPlayerId ≠ (echo right).realPlayerId := by
        rw [keeps, keeps, ids.1, ids.2]
        exact different
      have later := ih (echo left) (echo right) apart
      simp only [battleLoop, round, mirrored, Option.map_none, later, Option.map_map]
      rfl

theorem battleLoop_returns (b : BattleId) (l r : Status) (fit : Fit l) (fit' : Fit r) :
    ∃ rounds sent ending, battleLoop id b rounds l r = some (sent, ending) := by
  obtain ⟨rounds, enough⟩ : ∃ rounds : Nat, l.hp ≤ rounds := ⟨l.hp.toNat, by omega⟩
  refine ⟨rounds, ?_⟩
  induction rounds generalizing l r with
  | zero =>
    have alive := fit.alive
    omega
  | succ rounds ih =>
    rcases battleRound_cases b fit fit' with ⟨l', r', round, left, right⟩ | ⟨result, side, round, -⟩
    · have less := left.less
      obtain ⟨sent, ending, fought⟩ := ih l' r' (left.fit fit) (right.fit fit') (by omega)
      exact ⟨(l', r') :: sent, ending, by simp only [battleLoop, round, id, fought, Option.map_some]⟩
    · exact ⟨[(result.left, result.right)], result.ending, by simp only [battleLoop, round]⟩

/-- With the contestants exchanged, every round sends the same to each of them, and the same one wins
after the same number of rounds. -/
theorem battle_symmetric (b : BattleId) (l r : Status) (fit : Fit l) (fit' : Fit r)
    (different : l.realPlayerId ≠ r.realPlayerId) :
    (∀ echo : Status → Status, (∀ status, (echo status).realPlayerId = status.realPlayerId) →
      ∀ rounds, battleLoop echo b rounds r l =
        (battleLoop echo b rounds l r).map fun record => (record.1.map Prod.swap, record.2.mirror)) ∧
    ∃ rounds sent ending ending', battleLoop id b rounds l r = some (sent, ending) ∧
      battleLoop id b rounds r l = some (sent.map Prod.swap, ending') ∧
      ending'.winner = ending.winner := by
  refine ⟨fun echo keeps rounds => battleLoop_mirror echo keeps b rounds l r different, ?_⟩
  obtain ⟨rounds, sent, ending, fought⟩ := battleLoop_returns b l r fit fit'
  refine ⟨rounds, sent, ending, ending.mirror, fought, ?_, rfl⟩
  rw [battleLoop_mirror id (fun _ => rfl) b rounds l r different, fought]
  rfl

theorem battle_symmetric_pair : ∃ rounds sent ending ending',
    battleLoop id .C rounds ⟨0, 3, 1, .water, 'C', 0⟩ ⟨1, 3, 1, .fire, 'C', 0⟩ = some (sent, ending) ∧
    battleLoop id .C rounds ⟨1, 3, 1, .fire, 'C', 0⟩ ⟨0, 3, 1, .water, 'C', 0⟩ =
      some (sent.map Prod.swap, ending') ∧ ending'.winner = ending.winner :=
  (battle_symmetric .C ⟨0, 3, 1, .water, 'C', 0⟩ ⟨1, 3, 1, .fire, 'C', 0⟩ ⟨by decide, by decide⟩
    ⟨by decide, by decide⟩ (by decide)).2

end SPHomework.Tournament
