import SPHomework.Tournament.Relay

set_option autoImplicit false

/-!
# A battle among the processes

The rounds that a battle process plays with what stands behind its two pipes
are the rounds of the fight.
-/

namespace SPHomework.Tournament

open Lib Network

variable {table : Table}

/-- The process has sent a status up and its chain waits for the answer. -/
structure Offer (table : Table) (now : Processes) (node leaf : Node) (height : Nat) (st : Status) : Prop where
  waiting : Waiting table now height node leaf
  speaks : ∀ i, leaf = .player i → st.realPlayerId = i
  up : Carries now (.up node) [(node, st)]
  down : Carries now (.down node) []

structure Answered (table : Table) (now : Processes) (node leaf : Node) (height : Nat) (who : Node)
    (st : Status) : Prop where
  waiting : Waiting table now height node leaf
  speaks : ∀ i, leaf = .player i → st.realPlayerId = i
  up : Carries now (.up node) []
  down : Carries now (.down node) [(who, st)]

structure Apart (group : Set Node) (node : Node) : Prop where
  inner : ∀ inner, tree node inner = true → inner ∉ group
  higher : ∀ b, above node = some b → .battle b ∉ group

theorem Apart.pipes {group : Set Node} {node : Node} (apart : Apart group node) {now after : Processes}
    (ran : Within (nodeProgram table) group now after) :
    Quiet now after (.up node) ∧ Quiet now after (.down node) :=
  pipes_quiet ran (apart.inner node (tree_self node)) apart.higher

theorem apart_sides (b : BattleId) (side : Side) : Apart (subtree (child b side)) (child b side.other) where
  inner inner inside here := by
    have apart := tree_apart b side inner here
    rw [inside] at apart
    cases apart
  higher b' higher here := by
    rw [above_child, Option.some.injEq] at higher
    subst higher
    have apart := tree_parent b side
    rw [show tree (child b side) (.battle b) = true from here] at apart
    cases apart

variable {now after : Processes} {node leaf : Node} {height : Nat} {st : Status}

theorem Offer.kept (offer : Offer table now node leaf height st) {group : Set Node}
    (apart : Apart group node) (ran : Within (nodeProgram table) group now after) :
    Offer table after node leaf height st where
  waiting := offer.waiting.kept ran apart.inner
  speaks := offer.speaks
  up := offer.up.quiet (apart.pipes ran).1
  down := offer.down.quiet (apart.pipes ran).2

theorem Answered.kept {who : Node} (answered : Answered table now node leaf height who st)
    {group : Set Node} (apart : Apart group node) (ran : Within (nodeProgram table) group now after) :
    Answered table after node leaf height who st where
  waiting := answered.waiting.kept ran apart.inner
  speaks := answered.speaks
  up := answered.up.quiet (apart.pipes ran).1
  down := answered.down.quiet (apart.pipes ran).2

theorem Answered.goes_on (healthy : Healthy table) {who : Node}
    (answered : Answered table now node leaf height who st) (alive : 0 < st.hp)
    (early : st.battleEndedFlag = 1 → st.currentBattleId ≠ 'A') :
    ∃ after, Within (nodeProgram table) (subtree node) now after ∧
      Offer table after node leaf height (echo table st) ∧ ∀ k, Quiet now after (.fifo k) := by
  obtain ⟨after, ran, waiting, up, down, fifos⟩ :=
    answered.waiting.goes_on healthy answered.speaks alive early answered.up answered.down
  refine ⟨after, ran, ⟨waiting, ?_, up, down⟩, fifos⟩
  intro i same
  rw [echo_id]
  exact answered.speaks i same

theorem round_runs (table : Table) {b : BattleId} {now : Processes} {l r l' r' : Status} {ending : Option Ending}
    {whoLeft whoRight : Node} (idle : now.place (.battle b) = .readLeft)
    (round : battleRound b l r = (l', r', ending))
    (upLeft : Carries now (.up (child b .left)) [(whoLeft, l)])
    (upRight : Carries now (.up (child b .right)) [(whoRight, r)])
    (downLeft : Carries now (.down (child b .left)) [])
    (downRight : Carries now (.down (child b .right)) []) :
    ∃ after, Within (nodeProgram table) {.battle b} now after ∧
      after.place (.battle b) = afterRound l' r' ending ∧
      Carries after (.up (child b .left)) [] ∧ Carries after (.up (child b .right)) [] ∧
      Carries after (.down (child b .left)) [(.battle b, l')] ∧
      Carries after (.down (child b .right)) [(.battle b, r')] ∧
      ∀ channel, (∀ side, channel ≠ .up (child b side) ∧ channel ≠ .down (child b side)) →
        Quiet now after channel := by
  have different : child b .left ≠ child b .right := sides_ne b .left
  have reads : nodeProgram table (.battle b) (now.place (.battle b)) =
      .receive (.up (child b .left)) .readRight := by rw [idle]; rfl
  obtain ⟨first, taken, place, read⟩ := step_receive reads upLeft
  have reads' : nodeProgram table (.battle b) (first.place (.battle b)) =
      .receive (.up (child b .right)) fun rightPlayer => .writeLeft (battleRound b l rightPlayer).1
        (battleRound b l rightPlayer).2.1 (battleRound b l rightPlayer).2.2 := by
    rw [place]
    rfl
  have upRight' := upRight.quiet (read.others _ (by simpa using different.symm))
  obtain ⟨second, taken', place', read'⟩ := step_receive reads' upRight'
  simp only [round] at place'
  have writes : nodeProgram table (.battle b) (second.place (.battle b)) =
      .send (.down (child b .left)) l' (.writeRight l' r' ending) := by rw [place']; rfl
  obtain ⟨third, taken'', place'', wrote⟩ := step_send writes
  have writes' : nodeProgram table (.battle b) (third.place (.battle b)) =
      .send (.down (child b .right)) r' (afterRound l' r' ending) := by rw [place'']; rfl
  obtain ⟨after, taken''', place''', wrote'⟩ := step_send writes'
  refine ⟨after, (((Within.one taken).trans (Within.one taken')).trans (Within.one taken'')).trans
    (Within.one taken'''), place''', ?_, ?_, ?_, ?_, ?_⟩
  · have still := ((read'.others (.up (child b .left)) (by simpa using different)).trans
      (wrote.others _ (by simp))).trans (wrote'.others _ (by simp))
    exact (read.carries upLeft).quiet still
  · have still := (wrote.others (.up (child b .right)) (by simp)).trans (wrote'.others _ (by simp))
    exact (read'.carries upRight').quiet still
  · have still := (read.others (.down (child b .left)) (by simp)).trans (read'.others _ (by simp))
    exact (wrote.carries (downLeft.quiet still)).quiet (wrote'.others _ (by simpa using different))
  · have still := ((read.others (.down (child b .right)) (by simp)).trans (read'.others _ (by simp))).trans
      (wrote.others _ (by simpa using different.symm))
    exact wrote'.carries (downRight.quiet still)
  · intro channel apart
    exact ((read.others _ (apart .left).1).trans (read'.others _ (apart .right).1)).trans
      ((wrote.others _ (apart .left).2).trans (wrote'.others _ (apart .right).2))

theorem round_answers {b : BattleId} {l r l' r' : Status} {ending : Option Ending}
    {leafLeft leafRight : Node} {heightLeft heightRight : Nat} (idle : now.place (.battle b) = .readLeft)
    (round : battleRound b l r = (l', r', ending)) (sameLeft : l'.realPlayerId = l.realPlayerId)
    (sameRight : r'.realPlayerId = r.realPlayerId)
    (left : Offer table now (child b .left) leafLeft heightLeft l)
    (right : Offer table now (child b .right) leafRight heightRight r) :
    ∃ after, Within (nodeProgram table) {.battle b} now after ∧
      after.place (.battle b) = afterRound l' r' ending ∧
      Answered table after (child b .left) leafLeft heightLeft (.battle b) l' ∧
      Answered table after (child b .right) leafRight heightRight (.battle b) r' ∧
      Quiet now after (.up (.battle b)) ∧ Quiet now after (.down (.battle b)) ∧
      ∀ k, Quiet now after (.fifo k) := by
  obtain ⟨after, ran, place, upLeft, upRight, downLeft, downRight, still⟩ :=
    round_runs table idle round left.up right.up left.down right.down
  have alone := parent_alone b
  refine ⟨after, ran, place, ?_, ?_, still _ ?_, still _ ?_, fun k => still _ ?_⟩
  · exact ⟨left.waiting.kept ran (alone .left), fun i same => sameLeft.trans (left.speaks i same), upLeft, downLeft⟩
  · exact ⟨right.waiting.kept ran (alone .right), fun i same => sameRight.trans (right.speaks i same), upRight,
      downRight⟩
  · simp [Ne.symm (child_ne b _)]
  · simp [Ne.symm (child_ne b _)]
  · simp

theorem char_A {b : BattleId} (same : b.char = 'A') : b = .A := by
  revert b
  decide

-- The rounds of a battle process are those of the fight, down to the writes of the last one.
theorem fight_runs (healthy : Healthy table) (b : BattleId) (rounds : Nat) {l r : Status} {result : Result}
    {leafLeft leafRight : Node} {heightLeft heightRight : Nat} (fit : Fit l) (fit' : Fit r)
    (early : b = .A → l.battleEndedFlag ≠ 1 ∧ r.battleEndedFlag ≠ 1)
    (fought : fight (echo table) b rounds l r = some result)
    (idle : now.place (.battle b) = .readLeft)
    (left : Offer table now (child b .left) leafLeft heightLeft l)
    (right : Offer table now (child b .right) leafRight heightRight r) :
    ∃ after, Within (nodeProgram table) (subtree (.battle b)) now after ∧
      after.place (.battle b) = .waitLoser result ∧
      Answered table after (child b .left) leafLeft heightLeft (.battle b) result.left ∧
      Answered table after (child b .right) leafRight heightRight (.battle b) result.right ∧
      Quiet now after (.up (.battle b)) ∧ Quiet now after (.down (.battle b)) ∧
      ∀ k, Quiet now after (.fifo k) := by
  -- a round among the processes, then the two answers, then the rest of the fight
  induction rounds generalizing now l r with
  | zero => cases fought
  | succ rounds ih =>
    have self := self_subtree (.battle b)
    have part := child_subtree b
    rcases battleRound_cases b fit fit' with ⟨l', r', round, goes, goes'⟩ | ⟨last, side, round, decided⟩
    · simp only [fight, round] at fought
      obtain ⟨first, ran, place, left, right, up, down, fifos⟩ := round_answers idle round
        (by rw [goes.same]) (by rw [goes'.same]) left right
      -- nobody is told to stop in such a round
      have earlyLeft : l'.battleEndedFlag = 1 → l'.currentBattleId ≠ 'A' := by
        rw [goes.same]
        exact fun flag last => (early (char_A last)).1 flag
      have earlyRight : r'.battleEndedFlag = 1 → r'.currentBattleId ≠ 'A' := by
        rw [goes'.same]
        exact fun flag last => (early (char_A last)).2 flag
      obtain ⟨second, ranLeft, left, fifosLeft⟩ := left.goes_on healthy goes.alive earlyLeft
      obtain ⟨third, ranRight, right, fifosRight⟩ :=
        (right.kept (apart_sides b .left) ranLeft).goes_on healthy goes'.alive earlyRight
      have left := left.kept (apart_sides b .right) ranRight
      obtain ⟨stays, upLeft, downLeft⟩ := outside_quiet (tree_parent b .left) ranLeft
      obtain ⟨stays', upRight, downRight⟩ := outside_quiet (tree_parent b .right) ranRight
      have idle' : third.place (.battle b) = .readLeft := (stays'.trans stays).trans place
      obtain ⟨after, ranRest, place', left, right, up', down', fifos'⟩ := ih
        (echo_fit healthy (goes.fit fit)) (echo_fit healthy (goes'.fit fit'))
        (fun _ => ⟨echo_flag table l', echo_flag table r'⟩) fought idle' left right
      refine ⟨after, ?_, place', left, right, ?_, ?_, ?_⟩
      · exact (((ran.mono self).trans (ranLeft.mono (part .left))).trans (ranRight.mono (part .right))).trans
          ranRest
      · exact ((up.trans upLeft).trans upRight).trans up'
      · exact ((down.trans downLeft).trans downRight).trans down'
      · exact fun k => (((fifos k).trans (fifosLeft k)).trans (fifosRight k)).trans (fifos' k)
    · simp only [fight, round, Option.some.injEq] at fought
      subst fought
      obtain ⟨after, ran, place, left, right, rest⟩ := round_answers idle round
        (by rw [decided.left]) (by rw [decided.right]) left right
      exact ⟨after, ran.mono self, place, left, right, rest⟩

theorem Waiting.ends (waiting : Waiting table now height node leaf) :
    tree node leaf = true ∧ ((∃ i, leaf = .player i) ∨ ∃ a, leaf = .agent a) := by
  induction waiting with
  | player i idle => exact ⟨tree_self _, .inl ⟨i, rfl⟩⟩
  | agent a idle => exact ⟨tree_self _, .inr ⟨a, rfl⟩⟩
  | battle result idle winner loser up down line gone ih => exact ⟨tree_child ih.1, ih.2⟩

def rerouted (table : Table) (b : BattleId) (loser : Status) (k : Nat) : List (Node × Status) :=
  if agentId b.char = some k then [(.player loser.realPlayerId, reenters table loser)] else []

theorem farewell_loser {b : BattleId} {side : Side} {who : Node}
    (answered : Answered table now (child b side) leaf height who st) (down : st.hp ≤ 0)
    (here : st.currentBattleId = b.char) : farewell table leaf st = rerouted table b st := by
  -- only players write to fifos, and battles with agents under them have no slot to fill
  obtain ⟨inside, ⟨i, rfl⟩ | ⟨a, rfl⟩⟩ := answered.waiting.ends
  · funext k
    by_cases last : b.char = 'A'
    · simp [farewell, rerouted, here, last, agentId]
    · simp [farewell, rerouted, down, here, last, answered.speaks i rfl]
  · funext k
    simp [farewell, rerouted, agentId_agent b a (tree_child inside)]

theorem loser_stops {b : BattleId} {side : Side} {result : Result} {leaves : Side → Node}
    {heights : Side → Nat} (idle : now.place (.battle b) = .waitLoser result)
    (loser : result.ending.waited = side.other)
    (answered : ∀ side, Answered table now (child b side) (leaves side) (heights side) (.battle b)
      (result.status side)) (final : Final (result.status side.other))
    (assigned : ∀ i, leaves side.other = .player i → (result.status side.other).currentBattleId ≠ 'A' →
      (agentId (result.status side.other).currentBattleId).isSome) :
    ∃ after, Within (nodeProgram table) (subtree (.battle b)) now after ∧
      after.place (.battle b) = (if (btl b).parent = none then .printWinner result else .readWinner result) ∧
      Answered table after (child b side) (leaves side) (heights side) (.battle b) (result.status side) ∧
      (∀ inner, tree (child b side.other) inner = true → Halted table after inner) ∧
      AddsToFifos now after (farewell table (leaves side.other) (result.status side.other)) ∧
      Quiet now after (.up (.battle b)) ∧ Quiet now after (.down (.battle b)) := by
  have lost := answered side.other
  obtain ⟨middle, ran, gone, adds⟩ := lost.waiting.stops lost.speaks final assigned lost.down
  obtain ⟨stays, quietUp, quietDown⟩ := outside_quiet (tree_parent b side.other) ran
  -- `waitpid` returns once the whole side of the loser is gone
  have joins : nodeProgram table (.battle b) (middle.place (.battle b)) = .join (child b side.other)
      (if (btl b).parent = none then .printWinner result else .readWinner result) := by
    rw [stays, idle]
    simp [nodeProgram, battleProgram, loser]
  obtain ⟨after, taken, place, still⟩ := step_join joins (gone _ (tree_self _))
  have others := apart_sides b side.other
  rw [Side.other_other] at others
  have winner := (answered side).kept others ran
  refine ⟨after, ?_, place, ?_, ?_, ?_, ?_, ?_⟩
  · exact (ran.mono (child_subtree b side.other)).trans ((Within.one taken).mono (self_subtree _))
  · exact ⟨winner.waiting.kept (Within.one taken) (parent_alone b side), winner.speaks,
      winner.up.quiet (still _), winner.down.quiet (still _)⟩
  · exact fun inner inside => (Within.one taken).halted inner (gone inner inside)
  · exact adds.quiet_right fun k => still _
  · exact quietUp.trans (still _)
  · exact quietDown.trans (still _)

theorem battle_ends (healthy : Healthy table) {b : BattleId} {rounds : Nat} {l r : Status} {result : Result}
    {leaves : Side → Node} {heights : Side → Nat} (fit : Fit l) (fit' : Fit r)
    (early : b = .A → l.battleEndedFlag ≠ 1 ∧ r.battleEndedFlag ≠ 1)
    (fought : fight (echo table) b rounds l r = some result) (idle : now.place (.battle b) = .readLeft)
    (left : Offer table now (child b .left) (leaves .left) (heights .left) l)
    (right : Offer table now (child b .right) (leaves .right) (heights .right) r) :
    ∃ after side, Within (nodeProgram table) (subtree (.battle b)) now after ∧ Decided b l r side result ∧
      after.place (.battle b) = (if (btl b).parent = none then .printWinner result else .readWinner result) ∧
      Answered table after (child b side) (leaves side) (heights side) (.battle b) (result.status side) ∧
      (∀ inner, tree (child b side.other) inner = true → Halted table after inner) ∧
      AddsToFifos now after (rerouted table b (result.status side.other)) ∧
      Quiet now after (.up (.battle b)) ∧ Quiet now after (.down (.battle b)) := by
  obtain ⟨side, decided⟩ := fight_decided healthy b rounds fit fit' fought
  obtain ⟨first, ran, place, left, right, quietUp, quietDown, fifos⟩ := fight_runs healthy b rounds fit fit'
    early fought idle left right
  have answered : ∀ side, Answered table first (child b side) (leaves side) (heights side) (.battle b)
      (result.status side) := by
    intro side
    cases side with
    | left => exact left
    | right => exact right
  have lost := decided.status side.other
  have assigned : ∀ i, leaves side.other = .player i → (result.status side.other).currentBattleId ≠ 'A' →
      (agentId (result.status side.other).currentBattleId).isSome := by
    intro i leaf notLast
    have inside := (answered side.other).waiting.ends.1
    rw [leaf] at inside
    rw [lost.2] at notLast ⊢
    refine agentId_player b i ?_ (tree_child inside)
    rintro rfl
    exact notLast rfl
  obtain ⟨second, ran', place', winner, gone, adds, quietUp', quietDown'⟩ := loser_stops place
    (by rw [decided.ending]; rfl) answered ⟨lost.1, .inl decided.down⟩ assigned
  rw [farewell_loser (answered side.other) decided.down lost.2] at adds
  exact ⟨second, side, ran.trans ran', decided, place', winner, gone, adds.quiet_left fifos,
    quietUp.trans quietUp', quietDown.trans quietDown'⟩

-- A battle that is not the last: the winner is offered to the battle above.
theorem battle_settles (healthy : Healthy table) {b : BattleId} (notLast : b ≠ .A) {rounds : Nat}
    {l r : Status} {result : Result} {leaves : Side → Node} {heights : Side → Nat} (fit : Fit l) (fit' : Fit r)
    (fought : fight (echo table) b rounds l r = some result) (idle : now.place (.battle b) = .readLeft)
    (left : Offer table now (child b .left) (leaves .left) (heights .left) l)
    (right : Offer table now (child b .right) (leaves .right) (heights .right) r)
    (up : Carries now (.up (.battle b)) []) (down : Carries now (.down (.battle b)) []) :
    ∃ after side, Within (nodeProgram table) (subtree (.battle b)) now after ∧ Decided b l r side result ∧
      (after.place (.battle b)).result = some result ∧
      (∃ leaf height, Offer table after (.battle b) leaf height (movesUp table (result.status side))) ∧
      AddsToFifos now after (rerouted table b (result.status side.other)) := by
  obtain ⟨first, side, ran, decided, place, winner, gone, adds, quietUp, quietDown⟩ := battle_ends healthy
    fit fit' (fun last => absurd last notLast) fought idle left right
  rw [if_neg (parent_some b notLast)] at place
  have won := decided.status side
  have echoed : echo table (result.status side) = movesUp table (result.status side) := if_pos won.1
  -- the winner answers with its HP for the next battle, and the battle passes that up
  obtain ⟨second, ranWinner, offer, fifos⟩ := winner.goes_on healthy decided.alive fun _ last =>
    notLast (char_A (won.2.symm.trans last))
  rw [echoed] at offer
  obtain ⟨stays, quietUp', quietDown'⟩ := outside_quiet (tree_parent b side) ranWinner
  have free := (up.quiet quietUp).quiet quietUp'
  obtain ⟨third, ranUp, place', upChild, upBattle, still⟩ := relay_up table (stays.trans place)
    (by rw [decided.ending]; rfl) offer.up free
  refine ⟨third, side, ?_, decided, by rw [place']; rfl, ⟨leaves side, heights side + 1, ?_, ?_, upBattle, ?_⟩, ?_⟩
  · exact (ran.trans (ranWinner.mono (child_subtree b side))).trans (ranUp.mono (self_subtree _))
  · exact .battle result place' (by rw [decided.ending]; rfl) (by rw [decided.ending]; rfl) upChild
      (offer.down.quiet (still _ (by simp) (by simp))) (offer.waiting.kept ranUp (parent_alone b side))
      fun inner inside => ranUp.halted inner (ranWinner.halted inner (gone inner inside))
  · exact offer.speaks
  · exact ((down.quiet quietDown).quiet quietDown').quiet (still _ (by simp) (by simp))
  · exact adds.quiet_right fun k => (fifos k).trans (still _ (by simp) (by simp))

theorem last_battle (healthy : Healthy table) {rounds : Nat} {l r : Status} {result : Result}
    {leaves : Side → Node} {heights : Side → Nat} (fit : Fit l) (fit' : Fit r)
    (plain : l.battleEndedFlag ≠ 1) (plain' : r.battleEndedFlag ≠ 1)
    (fought : fight (echo table) .A rounds l r = some result) (idle : now.place (.battle .A) = .readLeft)
    (left : Offer table now (child .A .left) (leaves .left) (heights .left) l)
    (right : Offer table now (child .A .right) (leaves .right) (heights .right) r) :
    ∃ after side, Within (nodeProgram table) (subtree (.battle .A)) now after ∧ Decided .A l r side result ∧
      after.place (.battle .A) = .returned result ∧
      (∀ inner, tree (.battle .A) inner = true → Halted table after inner) ∧
      ∀ k, Quiet now after (.fifo k) := by
  obtain ⟨first, side, ran, decided, place, winner, gone, adds, -, -⟩ := battle_ends healthy
    fit fit' (fun _ => ⟨plain, plain'⟩) fought idle left right
  have won := decided.status side
  have noAgent : ∀ loser k, rerouted table .A loser k = [] := fun loser k => rfl
  have alive : ∀ k, farewell table (leaves side) (result.status side) k = [] := by
    intro k
    unfold farewell
    split
    · rw [if_neg fun all => absurd decided.alive (not_lt.mpr all.1)]
    · rfl
  -- the battle prints, the winner's side stops, and the battle waits for it
  have prints : nodeProgram table (.battle .A) (first.place (.battle .A)) =
      .print result.ending.winner (.waitLast result) := by rw [place]; rfl
  obtain ⟨second, taken, place', still⟩ := step_print prints
  obtain ⟨third, ranWinner, gone', adds'⟩ := (winner.waiting.kept (Within.one taken) (parent_alone .A side)).stops
    winner.speaks ⟨won.1, .inr won.2⟩ (fun _ _ early => absurd won.2 early) (winner.down.quiet (still _))
  have place'' := (outside_quiet (tree_parent .A side) ranWinner).1.trans place'
  have joins : nodeProgram table (.battle .A) (third.place (.battle .A)) =
      .join (child .A side) (.returned result) := by
    rw [place'']
    simp [nodeProgram, battleProgram, Ending.of, decided.ending]
  obtain ⟨after, taken', returned, still'⟩ := step_join joins (gone' _ (tree_self _))
  refine ⟨after, side, ?_, decided, returned, ?_, ?_⟩
  · exact ((ran.trans ((Within.one taken).mono (self_subtree _))).trans
      (ranWinner.mono (child_subtree .A side))).trans ((Within.one taken').mono (self_subtree _))
  · intro inner inside
    rcases tree_sides .A side inner inside with rfl | here | there
    · rw [Halted, halted, returned]
      rfl
    · exact (Within.one taken').halted inner (gone' inner here)
    · exact (Within.one taken').halted inner (ranWinner.halted inner
        ((Within.one taken).halted inner (gone inner there)))
  · intro k
    refine ⟨?_, ?_⟩
    · rw [(still' _).1, (adds' k).1, (still _).1, (adds k).1, noAgent, alive, List.append_nil, List.append_nil]
    · rw [(still' _).2, (adds' k).2, (still _).2, (adds k).2]

end SPHomework.Tournament
