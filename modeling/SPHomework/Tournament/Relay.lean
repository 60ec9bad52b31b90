import SPHomework.Tournament.Processes

set_option autoImplicit false

/-!
# Chains of relays

A battle that has ended passes messages on between its parent and its winner. A
chain of such battles, with a player or an agent at its end, answers like that
player or agent.
-/

namespace SPHomework.Tournament

open Lib Network

variable {table : Table}

abbrev Halted (table : Table) (now : Processes) (node : Node) : Prop :=
  now.halted (nodeProgram table) node = true

def subtree (root : Node) : Set Node := {node | tree root node = true}

theorem pipes_quiet {group : Set Node} {now after : Processes} {node : Node}
    (ran : Within (nodeProgram table) group now after) (own : node ∉ group)
    (higher : ∀ b, above node = some b → .battle b ∉ group) :
    Quiet now after (.up node) ∧ Quiet now after (.down node) := by
  have unused : ∀ channel, channel = .up node ∨ channel = .down node →
      ∀ p ∈ group, ¬ Uses (nodeProgram table) p channel := by
    intro channel pipe p member uses
    have user : reader channel = some p ∨ writer channel = some p := by
      rcases uses with ⟨place, message, next, doing⟩ | ⟨place, next, doing⟩
      · rcases sends_writer table doing with writes | ⟨fifo, -⟩
        · exact .inr writes
        · rcases pipe with rfl | rfl <;> cases fifo
      · exact .inl (reads_reader table doing)
    have near : p = node ∨ ∃ b, above node = some b ∧ p = .battle b := by
      rcases pipe with rfl | rfl <;> rcases user with reads | writes <;>
        simp only [reader, writer, Option.map_eq_some_iff, Option.some.injEq] at * <;> grind
    rcases near with rfl | ⟨b, parent, rfl⟩
    · exact own member
    · exact higher b parent member
  exact ⟨ran.quiet (unused _ (.inl rfl)), ran.quiet (unused _ (.inr rfl))⟩

theorem outside_quiet {root node : Node} {now after : Processes} (outside : tree root node = false)
    (ran : Within (nodeProgram table) (subtree root) now after) :
    after.place node = now.place node ∧ Quiet now after (.up node) ∧ Quiet now after (.down node) := by
  have own : node ∉ subtree root := by simp [subtree, outside]
  refine ⟨ran.place node own, pipes_quiet ran own ?_⟩
  intro b higher inside
  exact own (tree_below node b higher root inside)

theorem parent_alone (b : BattleId) (side : Side) (inner : Node) (inside : tree (child b side) inner = true) :
    inner ∉ ({.battle b} : Set Node) := by
  rintro rfl
  rw [tree_parent] at inside
  cases inside

theorem self_subtree (node : Node) : ({node} : Set Node) ⊆ subtree node := by
  rintro _ rfl
  exact tree_self _

theorem child_subtree (b : BattleId) (side : Side) : subtree (child b side) ⊆ subtree (.battle b) :=
  fun _ inside => tree_child inside

/-- The chain from a process to the player or agent that it speaks for, with an answer from above
outstanding. The children that lost on the way are gone. -/
inductive Waiting (table : Table) (now : Processes) : Nat → Node → Node → Prop where
  | player (i : Fin 8) (idle : now.place (.player i) = .readDown) :
    Waiting table now 0 (.player i) (.player i)
  | agent (a : Fin 7) (idle : now.place (.agent a) = .readDown) :
    Waiting table now 0 (.agent a) (.agent a)
  | battle {height : Nat} {b : BattleId} {side : Side} {leaf : Node} (result : Result)
    (idle : now.place (.battle b) = .readParent result)
    (winner : result.ending.winnerPipe = side) (loser : result.ending.waited = side.other)
    (up : Carries now (.up (child b side)) []) (down : Carries now (.down (child b side)) [])
    (line : Waiting table now height (child b side) leaf)
    (gone : ∀ node, tree (child b side.other) node = true → Halted table now node) :
    Waiting table now (height + 1) (.battle b) leaf

theorem Waiting.kept {group : Set Node} {now after : Processes} {height : Nat} {node leaf : Node}
    (waiting : Waiting table now height node leaf) (ran : Within (nodeProgram table) group now after)
    (apart : ∀ inner, tree node inner = true → inner ∉ group) : Waiting table after height node leaf := by
  -- from the leaf up: no process of the chain is in the group, and no pipe is used by it
  induction waiting with
  | player i idle =>
    exact .player i ((ran.place _ (apart _ (tree_self _))).trans idle)
  | agent a idle =>
    exact .agent a ((ran.place _ (apart _ (tree_self _))).trans idle)
  | @battle height b side leaf result idle winner loser up down line gone ih =>
    have outside : ∀ b', above (child b side) = some b' → .battle b' ∉ group := by
      intro b' higher
      rw [above_child, Option.some.injEq] at higher
      exact higher ▸ apart _ (tree_self _)
    obtain ⟨quietUp, quietDown⟩ := pipes_quiet ran (apart _ (tree_child (tree_self _))) outside
    exact .battle result ((ran.place _ (apart _ (tree_self _))).trans idle) winner loser
      (up.quiet quietUp) (down.quiet quietDown) (ih fun inner inside => apart inner (tree_child inside))
      fun inner inside => ran.halted inner (gone inner inside)

-- The message on which whoever gets it stops.
def Final (st : Status) : Prop := st.battleEndedFlag = 1 ∧ (st.hp ≤ 0 ∨ st.currentBattleId = 'A')

instance (st : Status) : Decidable (Final st) := inferInstanceAs (Decidable (_ ∧ _))

theorem relay_down (table : Table) {b : BattleId} {side : Side} {now : Processes} {result : Result} {st : Status}
    {who : Node} (idle : now.place (.battle b) = .readParent result)
    (winner : result.ending.winnerPipe = side) (asked : Carries now (.down (.battle b)) [(who, st)])
    (free : Carries now (.down (child b side)) []) :
    ∃ after, Within (nodeProgram table) {.battle b} now after ∧
      after.place (.battle b) = (if Final st then .waitLast result else .readWinner result) ∧
      Carries after (.down (.battle b)) [] ∧ Carries after (.down (child b side)) [(.battle b, st)] ∧
      ∀ channel, channel ≠ .down (.battle b) → channel ≠ .down (child b side) → Quiet now after channel := by
  have different : Channel.down (child b side) ≠ .down (.battle b) := by simp [child_ne]
  have reads : nodeProgram table (.battle b) (now.place (.battle b)) =
      .receive (.down (.battle b)) (.writeWinner result) := by rw [idle]; rfl
  obtain ⟨middle, taken, place, read⟩ := step_receive reads asked
  have writes : nodeProgram table (.battle b) (middle.place (.battle b)) =
      .send (.down (child b side)) st (if Final st then .waitLast result else .readWinner result) := by
    rw [place]
    by_cases flag : st.battleEndedFlag = 1 <;> by_cases down : st.hp ≤ 0 <;>
      simp [nodeProgram, battleProgram, winner, Final, flag, down]
  obtain ⟨after, taken', place', wrote⟩ := step_send writes
  refine ⟨after, (Within.one taken).trans (Within.one taken'), place', ?_, ?_, ?_⟩
  · exact (read.carries asked).quiet (wrote.others _ different.symm)
  · exact wrote.carries (free.quiet (read.others _ different))
  · intro channel notBattle notChild
    exact (read.others channel notBattle).trans (wrote.others channel notChild)

theorem relay_up (table : Table) {b : BattleId} {side : Side} {now : Processes} {result : Result} {st : Status}
    {who : Node} (idle : now.place (.battle b) = .readWinner result)
    (winner : result.ending.winnerPipe = side) (told : Carries now (.up (child b side)) [(who, st)])
    (free : Carries now (.up (.battle b)) []) :
    ∃ after, Within (nodeProgram table) {.battle b} now after ∧
      after.place (.battle b) = .readParent result ∧
      Carries after (.up (child b side)) [] ∧ Carries after (.up (.battle b)) [(.battle b, st)] ∧
      ∀ channel, channel ≠ .up (.battle b) → channel ≠ .up (child b side) → Quiet now after channel := by
  have different : Channel.up (child b side) ≠ .up (.battle b) := by simp [child_ne]
  have reads : nodeProgram table (.battle b) (now.place (.battle b)) =
      .receive (.up (child b side)) (.writeParent result) := by
    rw [idle]
    simp only [nodeProgram, battleProgram, winner]
  obtain ⟨middle, taken, place, read⟩ := step_receive reads told
  have writes : nodeProgram table (.battle b) (middle.place (.battle b)) =
      .send (.up (.battle b)) st (.readParent result) := by rw [place]; rfl
  obtain ⟨after, taken', place', wrote⟩ := step_send writes
  refine ⟨after, (Within.one taken).trans (Within.one taken'), place', ?_, ?_, ?_⟩
  · exact (read.carries told).quiet (wrote.others _ different)
  · exact wrote.carries (free.quiet (read.others _ different.symm))
  · intro channel notBattle notChild
    exact (read.others channel notChild).trans (wrote.others channel notBattle)

theorem healed {table : Table} (healthy : Healthy table) {st : Status} (alive : 0 < st.hp) :
    (st.hp + (playerStatus table st.realPlayerId).hp).tdiv 2 =
      (st.hp + (playerStatus table st.realPlayerId).hp) / 2 := by
  have initial := (healthy.fit st.realPlayerId).alive
  exact Int.tdiv_eq_ediv_of_nonneg (by omega)

theorem playerAnswer_alive (healthy : Healthy table) {st : Status} (alive : 0 < st.hp)
    (early : st.battleEndedFlag = 1 → st.currentBattleId ≠ 'A') :
    playerAnswer table st.realPlayerId st = .writeUp (echo table st) := by
  by_cases flag : st.battleEndedFlag = 1
  · simp [playerAnswer, echo, movesUp, flag, alive, early flag, healed healthy alive]
  · simp [playerAnswer, echo, flag]

theorem agentAnswer_alive (healthy : Healthy table) {st : Status} (alive : 0 < st.hp)
    (early : st.battleEndedFlag = 1 → st.currentBattleId ≠ 'A') :
    agentAnswer table st = .writeUp (echo table st) := by
  by_cases flag : st.battleEndedFlag = 1
  · simp [agentAnswer, echo, movesUp, flag, not_le.mpr alive, early flag, healed healthy alive]
  · simp [agentAnswer, echo, flag]

theorem pipe_answers (table : Table) {node who : Node} {now : Processes} {answer : Status → Local} {st st' : Status}
    (runs : ∀ place, place = .readDown ∨ (∃ st, place = .writeUp st) →
      nodeProgram table node place = pipeProgram node answer place)
    (idle : now.place node = .readDown) (answers : answer st = .writeUp st')
    (up : Carries now (.up node) []) (down : Carries now (.down node) [(who, st)]) :
    ∃ after, Within (nodeProgram table) {node} now after ∧ after.place node = .readDown ∧
      Carries after (.up node) [(node, st')] ∧ Carries after (.down node) [] ∧
      ∀ k, Quiet now after (.fifo k) := by
  have reads : nodeProgram table node (now.place node) = .receive (.down node) answer := by
    rw [idle, runs _ (.inl rfl)]
    rfl
  obtain ⟨middle, taken, place, read⟩ := step_receive reads down
  have writes : nodeProgram table node (middle.place node) = .send (.up node) st' .readDown := by
    rw [place, answers, runs _ (.inr ⟨st', rfl⟩)]
    rfl
  obtain ⟨after, taken', place', wrote⟩ := step_send writes
  refine ⟨after, (Within.one taken).trans (Within.one taken'), place', ?_, ?_, ?_⟩
  · exact wrote.carries (up.quiet (read.others _ (by simp)))
  · exact (read.carries down).quiet (wrote.others _ (by simp))
  · intro k
    exact (read.others _ (by simp)).trans (wrote.others _ (by simp))

-- A chain passes on a status that is not final, and the answer to it.
theorem Waiting.goes_on (healthy : Healthy table) {height : Nat} {now : Processes} {node leaf who : Node}
    {st : Status} (waiting : Waiting table now height node leaf)
    (speaks : ∀ i, leaf = .player i → st.realPlayerId = i) (alive : 0 < st.hp)
    (early : st.battleEndedFlag = 1 → st.currentBattleId ≠ 'A')
    (up : Carries now (.up node) []) (down : Carries now (.down node) [(who, st)]) :
    ∃ after, Within (nodeProgram table) (subtree node) now after ∧ Waiting table after height node leaf ∧
      Carries after (.up node) [(node, echo table st)] ∧ Carries after (.down node) [] ∧
      ∀ k, Quiet now after (.fifo k) := by
  have unfinal : ¬ Final st := by
    rintro ⟨flag, down | last⟩
    · omega
    · exact early flag last
  induction height generalizing now node who with
  | zero =>
    cases waiting with
    | player i idle =>
      have answers := playerAnswer_alive healthy alive early
      rw [speaks i rfl] at answers
      obtain ⟨after, ran, idle', up', down', fifos⟩ := pipe_answers table (by
        rintro place (rfl | ⟨st, rfl⟩) <;> rfl) idle answers up down
      exact ⟨after, ran.mono (self_subtree _), .player i idle', up', down', fifos⟩
    | agent a idle =>
      have answers := agentAnswer_alive healthy alive early
      obtain ⟨after, ran, idle', up', down', fifos⟩ := pipe_answers table (by
        rintro place (rfl | ⟨st, rfl⟩) <;> rfl) idle answers up down
      exact ⟨after, ran.mono (self_subtree _), .agent a idle', up', down', fifos⟩
  | succ height ih =>
    cases waiting with
    | @battle _ b side _ result idle winner loser childUp childDown line gone =>
      have alone := parent_alone b side
      have part := child_subtree b side
      have self := self_subtree (.battle b)
      -- down to the child, through its chain, and up again
      obtain ⟨first, ranDown, place, downBattle, downChild, still⟩ := relay_down table idle winner down childDown
      rw [if_neg unfinal] at place
      have childUp' := childUp.quiet (still _ (by simp) (by simp))
      have up' := up.quiet (still _ (by simp) (by simp))
      obtain ⟨second, ranChild, line', upChild, downChild', fifos⟩ :=
        ih (line.kept ranDown alone) childUp' downChild
      obtain ⟨stays, quietUp, quietDown⟩ := outside_quiet (tree_parent b side) ranChild
      obtain ⟨third, ranUp, place', upChild', upBattle, still'⟩ :=
        relay_up table (stays.trans place) winner upChild (up'.quiet quietUp)
      have ran : Within (nodeProgram table) (subtree (.battle b)) now third :=
        ((ranDown.mono self).trans (ranChild.mono part)).trans (ranUp.mono self)
      refine ⟨third, ran, ?_, upBattle, ?_, ?_⟩
      · exact .battle result place' winner loser upChild'
          (downChild'.quiet (still' _ (by simp) (by simp))) (line'.kept ranUp alone)
          fun inner inside => ran.halted inner (gone inner inside)
      · exact (downBattle.quiet quietDown).quiet (still' _ (by simp) (by simp))
      · intro k
        exact ((still _ (by simp) (by simp)).trans (fifos k)).trans (still' _ (by simp) (by simp))

/-- What whoever is at the end of a chain writes to a fifo when it gets a final status. -/
def farewell (table : Table) (leaf : Node) (st : Status) (k : Nat) : List (Node × Status) :=
  match leaf with
  | .player i =>
    if st.hp ≤ 0 ∧ st.currentBattleId ≠ 'A' ∧ agentId st.currentBattleId = some k then
      [(.player i, reenters table st)]
    else []
  | _ => []

def AddsToFifos (now after : Processes) (extra : Nat → List (Node × Status)) : Prop :=
  ∀ k, after.sent (.fifo k) = now.sent (.fifo k) ++ extra k ∧ after.taken (.fifo k) = now.taken (.fifo k)

theorem AddsToFifos.quiet_left {now middle after : Processes} {extra : Nat → List (Node × Status)}
    (quiet : ∀ k, Quiet now middle (.fifo k)) (adds : AddsToFifos middle after extra) :
    AddsToFifos now after extra :=
  fun k => ⟨by rw [(adds k).1, (quiet k).1], (adds k).2.trans (quiet k).2⟩

theorem AddsToFifos.quiet_right {now middle after : Processes} {extra : Nat → List (Node × Status)}
    (adds : AddsToFifos now middle extra) (quiet : ∀ k, Quiet middle after (.fifo k)) :
    AddsToFifos now after extra :=
  fun k => ⟨(quiet k).1.trans (adds k).1, (quiet k).2.trans (adds k).2⟩

theorem player_stops {i : Fin 8} {now : Processes} {st : Status} {who : Node}
    (idle : now.place (.player i) = .readDown) (speaks : st.realPlayerId = i) (final : Final st)
    (assigned : st.currentBattleId ≠ 'A' → (agentId st.currentBattleId).isSome)
    (down : Carries now (.down (.player i)) [(who, st)]) :
    ∃ after, Within (nodeProgram table) {.player i} now after ∧ after.place (.player i) = .exited ∧
      AddsToFifos now after (farewell table (.player i) st) := by
  have reads : nodeProgram table (.player i) (now.place (.player i)) =
      .receive (.down (.player i)) (playerAnswer table i) := by rw [idle]; rfl
  obtain ⟨middle, taken, place, read⟩ := step_receive reads down
  have flag := final.1
  -- a loser of a battle other than A writes to its agent before it exits
  by_cases lost : st.hp ≤ 0 ∧ st.currentBattleId ≠ 'A'
  · obtain ⟨k, number⟩ := Option.isSome_iff_exists.mp (assigned lost.2)
    have answers : playerAnswer table i st = .writeFifo (some k) (reenters table st) := by
      simp [playerAnswer, flag, not_lt.mpr lost.1, lost.2, number, reenters, speaks]
    have writes : nodeProgram table (.player i) (middle.place (.player i)) =
        .send (.fifo k) (reenters table st) .exited := by
      rw [place, answers]
      rfl
    obtain ⟨after, taken', place', wrote⟩ := step_send writes
    refine ⟨after, (Within.one taken).trans (Within.one taken'), place', ?_⟩
    intro k'
    have still := read.others (.fifo k') (by simp)
    by_cases same : k = k'
    · subst same
      have extra : farewell table (.player i) st k = [(.player i, reenters table st)] := by
        simp [farewell, lost, number]
      exact ⟨by rw [wrote.sent, still.1, extra], wrote.taken.trans still.2⟩
    · have extra : farewell table (.player i) st k' = [] := by simp [farewell, number, same]
      have still' := wrote.others (.fifo k') (by simpa using Ne.symm same)
      exact ⟨by rw [still'.1, still.1, extra, List.append_nil], still'.2.trans still.2⟩
  · have answers : playerAnswer table i st = .exited := by
      rcases final.2 with down | last
      · have last : st.currentBattleId = 'A' := by simpa [down] using lost
        simp [playerAnswer, flag, last]
      · simp [playerAnswer, flag, last]
    refine ⟨middle, Within.one taken, place.trans answers, ?_⟩
    intro k
    have extra : farewell table (.player i) st k = [] := by
      rw [farewell, if_neg fun all => lost ⟨all.1, all.2.1⟩]
    have still := read.others (.fifo k) (by simp)
    exact ⟨by rw [still.1, extra, List.append_nil], still.2⟩

theorem Waiting.stops {height : Nat} {now : Processes} {node leaf who : Node} {st : Status}
    (waiting : Waiting table now height node leaf)
    (speaks : ∀ i, leaf = .player i → st.realPlayerId = i) (final : Final st)
    (assigned : ∀ i, leaf = .player i → st.currentBattleId ≠ 'A' → (agentId st.currentBattleId).isSome)
    (down : Carries now (.down node) [(who, st)]) :
    ∃ after, Within (nodeProgram table) (subtree node) now after ∧
      (∀ inner, tree node inner = true → Halted table after inner) ∧
      AddsToFifos now after (farewell table leaf st) := by
  induction height generalizing now node who with
  | zero =>
    cases waiting with
    | player i idle =>
      obtain ⟨after, ran, place, adds⟩ := player_stops idle (speaks i rfl) final (assigned i rfl) down
      refine ⟨after, ran.mono (self_subtree _), ?_, adds⟩
      intro inner inside
      rw [tree_player i inner inside, Halted, halted, place]
      rfl
    | agent a idle =>
      have reads : nodeProgram table (.agent a) (now.place (.agent a)) =
          .receive (.down (.agent a)) (agentAnswer table) := by rw [idle]; rfl
      obtain ⟨after, taken, place, read⟩ := step_receive reads down
      have answers : agentAnswer table st = .exited := by simp [agentAnswer, final.1, final.2]
      refine ⟨after, (Within.one taken).mono (self_subtree _), ?_, ?_⟩
      · intro inner inside
        rw [tree_agent a inner inside, Halted, halted, place, answers]
        rfl
      · intro k
        have still := read.others (.fifo k) (by simp)
        have extra : farewell table (.agent a) st k = [] := rfl
        exact ⟨by rw [still.1, extra, List.append_nil], still.2⟩
  | succ height ih =>
    cases waiting with
    | @battle _ b side _ result idle winner loser childUp childDown line gone =>
      have alone := parent_alone b side
      have part := child_subtree b side
      have self := self_subtree (.battle b)
      -- the message goes down before the battle waits for the child that it stops
      obtain ⟨first, ranDown, place, -, downChild, still⟩ := relay_down table idle winner down childDown
      rw [if_pos final] at place
      obtain ⟨second, ranChild, gone', adds⟩ := ih (line.kept ranDown alone) downChild
      have place' := (outside_quiet (tree_parent b side) ranChild).1.trans place
      have joins : nodeProgram table (.battle b) (second.place (.battle b)) =
          .join (child b side) (.returned result) := by
        rw [place']
        simp [nodeProgram, battleProgram, loser]
      obtain ⟨third, taken, place'', quiet⟩ := step_join joins (gone' _ (tree_self _))
      have ranRest := (ranChild.mono part).trans ((Within.one taken).mono self)
      refine ⟨third, (ranDown.mono self).trans ranRest, ?_, ?_⟩
      · intro inner inside
        by_cases own : inner = .battle b
        · rw [own, Halted, halted, place'']
          rfl
        · rcases tree_sides b side inner inside with same | here | there
          · exact absurd same own
          · exact (Within.one taken).halted inner (gone' inner here)
          · exact ranRest.halted inner (ranDown.halted inner (gone inner there))
      · exact (adds.quiet_left fun k => still _ (by simp) (by simp)).quiet_right fun k => quiet _

end SPHomework.Tournament
