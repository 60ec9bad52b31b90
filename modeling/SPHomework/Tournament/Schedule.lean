import SPHomework.Tournament.Reference
import SPHomework.Tournament.Rounds

set_option autoImplicit false

/-!
# One complete run

The battles can be run one after the other, in the order of the reference. What
holds between two of them is written down once and kept by each.
-/

namespace SPHomework.Tournament

open Lib Network

def Settled (done : List BattleId) : Node → Prop
  | .player _ => True
  | .agent a => slot a ∈ done
  | .battle b => b ∈ done

instance (done : List BattleId) (node : Node) : Decidable (Settled done node) :=
  match node with
  | .player _ => .isTrue trivial
  | .agent a => inferInstanceAs (Decidable (slot a ∈ done))
  | .battle b => inferInstanceAs (Decidable (b ∈ done))

/-- The battle can be next: its contestants are there, all under it is over, and it is apart from
whatever else waits. -/
def Ready (done : List BattleId) (b : BattleId) : Prop :=
  b ∉ done ∧ (∀ side, Settled done (child b side)) ∧
    (∀ b', tree (.battle b) (.battle b') = true → b' = b ∨ b' ∈ done) ∧
    (∀ a, tree (.battle b) (.agent a) = true → slot a ∈ done) ∧
    (∀ node, Settled done node → (∀ p, above node = some p → p ≠ b ∧ p ∉ done) →
      ∀ inner, tree node inner = true → tree (.battle b) inner = false) ∧
    ∀ a, slot a = b → ∀ node, Settled done node → tree node (.agent a) = false

instance (done : List BattleId) (b : BattleId) : Decidable (Ready done b) :=
  inferInstanceAs (Decidable (_ ∧ _))

theorem order_ready : ∀ k < 14, Ready (order.take k) (order.getD k .A) := by
  decide +kernel

variable {table : Table}

theorem result_kept {now after : Processes} {group : Set Node} {b : BattleId} {result : Result}
    (ran : Within (nodeProgram table) group now after)
    (found : (now.place (.battle b)).result = some result) :
    (after.place (.battle b)).result = some result := by
  apply ran.invariant (fun now => (now.place (.battle b)).result = some result)
  · intro p member now next known taken
    by_cases own : p = .battle b
    · subst own
      exact step_result taken known
    · rw [step_place taken _ (Ne.symm own)]
      exact known
  · exact found

structure Idle (now : Processes) (a : Fin 7) : Prop where
  place : now.place (.agent a) = .readFifo
  up : Carries now (.up (.agent a)) []
  down : Carries now (.down (.agent a)) []
  sent : now.sent (.fifo (agentNumber a)) = []
  taken : now.taken (.fifo (agentNumber a)) = 0

structure Fresh (now : Processes) (b : BattleId) : Prop where
  place : now.place (.battle b) = .readLeft
  up : Carries now (.up (.battle b)) []
  down : Carries now (.down (.battle b)) []

structure Known (table : Table) (results : BattleId → Option Result) (now : Processes) (b : BattleId)
    (l r : Status) (side : Side) (result : Result) : Prop where
  left : entrant table results (child b .left) = some l
  right : entrant table results (child b .right) = some r
  found : results b = some result
  decided : Decided b l r side result
  place : (now.place (.battle b)).result = some result

/-- Between two battles. -/
structure Progress (table : Table) (done : List BattleId) (results : BattleId → Option Result)
    (now : Processes) : Prop where
  fresh : ∀ b, b ∉ done → Fresh now b
  idle : ∀ a, slot a ∉ done → Idle now a
  offers : ∀ node, Settled done node → (∀ p, above node = some p → p ∉ done) →
    ∃ st leaf height, entrant table results node = some st ∧ Fit st ∧ Offer table now node leaf height st
  settled : ∀ b ∈ done, ∀ side, Settled done (child b side)
  known : ∀ b ∈ done, ∃ l r side result, Known table results now b l r side result
  used : ∀ a, slot a ∈ done → ∃ result, results (slot a) = some result ∧
    now.sent (.fifo (agentNumber a)) = [(.player result.loser.realPlayerId, reenters table result.loser)] ∧
    now.taken (.fifo (agentNumber a)) = 1
  unused : ∀ k, (∀ a, agentNumber a ≠ k) → now.sent (.fifo k) = []

theorem agent_enters {now : Processes} {a : Fin 7} {who : Node} {st : Status}
    (place : now.place (.agent a) = .readFifo) (up : Carries now (.up (.agent a)) [])
    (down : Carries now (.down (.agent a)) []) (sent : now.sent (.fifo (agentNumber a)) = [(who, st)])
    (taken : now.taken (.fifo (agentNumber a)) = 0) :
    ∃ after, Within (nodeProgram table) {.agent a} now after ∧ Offer table after (.agent a) (.agent a) 0 st ∧
      after.sent (.fifo (agentNumber a)) = [(who, st)] ∧ after.taken (.fifo (agentNumber a)) = 1 ∧
      ∀ k, k ≠ agentNumber a → Quiet now after (.fifo k) := by
  have reads : nodeProgram table (.agent a) (now.place (.agent a)) =
      .receive (.fifo (agentNumber a)) .writeUp := by rw [place]; rfl
  have carries : Carries now (.fifo (agentNumber a)) [(who, st)] := ⟨[], sent, taken⟩
  obtain ⟨middle, took, place', read⟩ := step_receive reads carries
  have writes : nodeProgram table (.agent a) (middle.place (.agent a)) =
      .send (.up (.agent a)) st .readDown := by rw [place']; rfl
  obtain ⟨after, took', place'', wrote⟩ := step_send writes
  have still := wrote.others (.fifo (agentNumber a)) (by simp)
  refine ⟨after, (Within.one took).trans (Within.one took'), ⟨.agent a place'', by simp, ?_, ?_⟩, ?_, ?_, ?_⟩
  · exact wrote.carries (up.quiet (read.others _ (by simp)))
  · exact (down.quiet (read.others _ (by simp))).quiet (wrote.others _ (by simp))
  · rw [still.1, read.sent, sent]
  · rw [still.2, read.taken, taken]
  · intro k other
    exact (read.others _ (by simpa using other)).trans (wrote.others _ (by simp))

theorem entrant_kept {done : List BattleId} {results : BattleId → Option Result} {b : BattleId}
    {result : Option Result} (next : b ∉ done) {node : Node} (settled : Settled done node) :
    entrant table (Function.update results b result) node = entrant table results node := by
  cases node with
  | player i => rfl
  | agent a =>
    have other : slot a ≠ b := by
      rintro rfl
      exact next settled
    simp [entrant, other]
  | battle b' =>
    have other : b' ≠ b := by
      rintro rfl
      exact next settled
    simp [entrant, other]

theorem Settled.mono {done : List BattleId} {node : Node} (settled : Settled done node) (b : BattleId) :
    Settled (done ++ [b]) node := by
  cases node with
  | player i => trivial
  | agent a => exact List.mem_append_left _ settled
  | battle b' => exact List.mem_append_left _ settled

def slotOf (b : BattleId) : Set Node := {node | ∃ a, node = .agent a ∧ slot a = b}

-- The loser of a battle comes back at its agent, if the battle has one.
theorem loser_enters {now : Processes} {b : BattleId} {loser : Status}
    (idle : ∀ a, slot a = b → now.place (.agent a) = .readFifo ∧ Carries now (.up (.agent a)) [] ∧
      Carries now (.down (.agent a)) [] ∧
      now.sent (.fifo (agentNumber a)) = [(.player loser.realPlayerId, reenters table loser)] ∧
      now.taken (.fifo (agentNumber a)) = 0) :
    ∃ after, Within (nodeProgram table) (slotOf b) now after ∧
      (∀ a, slot a = b → Offer table after (.agent a) (.agent a) 0 (reenters table loser) ∧
        after.sent (.fifo (agentNumber a)) = [(.player loser.realPlayerId, reenters table loser)] ∧
        after.taken (.fifo (agentNumber a)) = 1) ∧
      ∀ k, agentId b.char ≠ some k → Quiet now after (.fifo k) := by
  rcases agentId_slot b with ⟨-, nobody⟩ | ⟨a, place, number⟩
  · exact ⟨now, .refl _ now, fun a here => absurd here (nobody a), fun k _ => ⟨rfl, rfl⟩⟩
  · obtain ⟨reading, up, down, sent, taken⟩ := idle a place
    obtain ⟨after, ran, offer, sent', taken', still⟩ := @agent_enters table now a _ _ reading up down sent taken
    refine ⟨after, ran.mono ?_, ?_, ?_⟩
    · rintro _ rfl
      exact ⟨a, rfl, place⟩
    · intro a' place'
      obtain rfl : a = a' := slot_injective a a' (place.trans place'.symm)
      exact ⟨offer, sent', taken'⟩
    · intro k other
      refine still k ?_
      rintro rfl
      exact other number

theorem slotOf_apart {b : BattleId} {node : Node}
    (inner : ∀ a, slot a = b → tree node (.agent a) = false) : Apart (slotOf b) node where
  inner := by
    rintro _ inside ⟨a, rfl, place⟩
    rw [inner a place] at inside
    cases inside
  higher := by
    rintro p - ⟨a, same, -⟩
    cases same

theorem entrant_plain (flags : ∀ i, (table i).battleEndedFlag = 0) {results : BattleId → Option Result}
    {node : Node} {st : Status} (enters : entrant table results node = some st) : st.battleEndedFlag = 0 := by
  cases node with
  | player i =>
    simp only [entrant, Option.some.injEq] at enters
    exact enters ▸ flags i
  | agent a =>
    obtain ⟨result, -, rfl⟩ := Option.map_eq_some_iff.mp enters
    rfl
  | battle b =>
    obtain ⟨result, -, rfl⟩ := Option.map_eq_some_iff.mp enters
    rfl

-- What a battle and the agent of its loser do to everybody else.
structure Passed (table : Table) (b : BattleId) (now after : Processes) : Prop where
  outside : ∀ node, tree (.battle b) node = false → node ∉ slotOf b →
    after.place node = now.place node ∧ Quiet now after (.up node) ∧ Quiet now after (.down node)
  fifos : ∀ k, agentId b.char ≠ some k → Quiet now after (.fifo k)
  offers : ∀ node leaf height st, Offer table now node leaf height st → Apart (subtree (.battle b)) node →
    Apart (slotOf b) node → Offer table after node leaf height st
  results : ∀ b' result, (now.place (.battle b')).result = some result →
    (after.place (.battle b')).result = some result

theorem Passed.fresh {b b' : BattleId} {now after : Processes} (passed : Passed table b now after)
    (outside : tree (.battle b) (.battle b') = false) (fresh : Fresh now b') : Fresh after b' := by
  obtain ⟨place, up, down⟩ := passed.outside _ outside (by simp [slotOf])
  exact ⟨place.trans fresh.place, fresh.up.quiet up, fresh.down.quiet down⟩

theorem Passed.idle {b : BattleId} {a : Fin 7} {now after : Processes} (passed : Passed table b now after)
    (outside : tree (.battle b) (.agent a) = false) (other : slot a ≠ b) (idle : Idle now a) :
    Idle after a := by
  obtain ⟨place, up, down⟩ := passed.outside _ outside (by simp [slotOf, other])
  have still := passed.fifos (agentNumber a) fun number => other ((agentId_iff b a).mp number)
  exact ⟨place.trans idle.place, idle.up.quiet up, idle.down.quiet down, still.1.trans idle.sent,
    still.2.trans idle.taken⟩

theorem battle_passes (healthy : Healthy table) {b : BattleId} (notLast : b ≠ .A) {now : Processes}
    {rounds : Nat} {l r : Status} {result : Result} {leaves : Side → Node} {heights : Side → Nat} (fit : Fit l)
    (fit' : Fit r) (fought : fight (echo table) b rounds l r = some result) (fresh : Fresh now b)
    (left : Offer table now (child b .left) (leaves .left) (heights .left) l)
    (right : Offer table now (child b .right) (leaves .right) (heights .right) r)
    (agents : ∀ a, slot a = b → tree (.battle b) (.agent a) = false)
    (idle : ∀ a, slot a = b → Idle now a) :
    ∃ after side, Within (nodeProgram table) Set.univ now after ∧ Passed table b now after ∧
      Decided b l r side result ∧ (after.place (.battle b)).result = some result ∧
      (∃ leaf height, Offer table after (.battle b) leaf height (movesUp table result.winner)) ∧
      ∀ a, slot a = b → Offer table after (.agent a) (.agent a) 0 (reenters table result.loser) ∧
        after.sent (.fifo (agentNumber a)) = [(.player result.loser.realPlayerId, reenters table result.loser)] ∧
        after.taken (.fifo (agentNumber a)) = 1 := by
  obtain ⟨middle, side, ran, decided, place, ⟨leaf, height, offer⟩, adds⟩ :=
    battle_settles healthy notLast fit fit' fought fresh.place left right fresh.up fresh.down
  rw [← decided.winner] at offer
  rw [← decided.loser] at adds
  have waits : ∀ a, slot a = b → middle.place (.agent a) = .readFifo ∧ Carries middle (.up (.agent a)) [] ∧
      Carries middle (.down (.agent a)) [] ∧ middle.sent (.fifo (agentNumber a)) =
        [(.player result.loser.realPlayerId, reenters table result.loser)] ∧
      middle.taken (.fifo (agentNumber a)) = 0 := by
    intro a here
    have idle := idle a here
    obtain ⟨stays, up, down⟩ := outside_quiet (agents a here) ran
    have number := (agentId_iff b a).mpr here
    refine ⟨stays.trans idle.place, idle.up.quiet up, idle.down.quiet down, ?_, ?_⟩
    · rw [(adds _).1, idle.sent, rerouted, if_pos number]
      rfl
    · rw [(adds _).2, idle.taken]
  -- the agent that waits for this loser has its message now
  obtain ⟨after, ran', entered, still⟩ := loser_enters waits
  refine ⟨after, side, ?_, ⟨?_, ?_, ?_, ?_⟩, decided, result_kept ran' place, ?_, entered⟩
  · exact (ran.mono (Set.subset_univ _)).trans (ran'.mono (Set.subset_univ _))
  · intro node outside others
    obtain ⟨stays, up, down⟩ := outside_quiet outside ran
    obtain ⟨up', down'⟩ := pipes_quiet ran' others fun p _ => by simp [slotOf]
    exact ⟨(ran'.place node others).trans stays, up.trans up', down.trans down'⟩
  · intro k nobody
    have none : rerouted table b result.loser k = [] := if_neg nobody
    have first : Quiet now middle (.fifo k) := ⟨by rw [(adds k).1, none, List.append_nil], (adds k).2⟩
    exact first.trans (still k nobody)
  · intro node leaf height st offer apart apart'
    exact (offer.kept apart ran).kept apart' ran'
  · intro b' found known
    exact result_kept ran' (result_kept ran known)
  · exact ⟨leaf, height, offer.kept (slotOf_apart agents) ran'⟩

-- Those who waited for their battle before still do, and two more do now.
theorem offers_step (healthy : Healthy table) {done : List BattleId} {results : BattleId → Option Result}
    {now after : Processes} {b : BattleId} {l r : Status} {side : Side} {result : Result} {leaf : Node}
    {height : Nat} (ready : Ready done b) (progress : Progress table done results now)
    (passed : Passed table b now after) (decided : Decided b l r side result) (fit : Fit l) (fit' : Fit r)
    (offer : Offer table after (.battle b) leaf height (movesUp table result.winner))
    (entered : ∀ a, slot a = b → Offer table after (.agent a) (.agent a) 0 (reenters table result.loser))
    (node : Node) (settled : Settled (done ++ [b]) node)
    (alone : ∀ p, above node = some p → p ∉ done ++ [b]) :
    ∃ st leaf height, entrant table (Function.update results b (some result)) node = some st ∧ Fit st ∧
      Offer table after node leaf height st := by
  obtain ⟨next, contestants, battlesUnder, agentsUnder, apart, agentsApart⟩ := ready
  have strong := decided.strong fit fit'
  -- whoever waited before is apart from this battle; the others are its winner and its loser
  by_cases old : Settled done node
  · have free : ∀ p, above node = some p → p ≠ b ∧ p ∉ done := by
      intro p higher
      have later := alone p higher
      rw [List.mem_append, List.mem_singleton, not_or] at later
      exact later.symm
    obtain ⟨st, leaf', height', enters, fit, waits⟩ :=
      progress.offers node old fun p higher => (free p higher).2
    refine ⟨st, leaf', height', (entrant_kept next old).trans enters, fit, ?_⟩
    refine passed.offers node leaf' height' st waits ⟨?_, ?_⟩ (slotOf_apart fun a here => agentsApart a here node old)
    · intro inner inside here
      have outside := apart node old free inner inside
      rw [show tree (.battle b) inner = true from here] at outside
      cases outside
    · intro p higher here
      exact (battlesUnder p here).elim (free p higher).1 (free p higher).2
  · cases node with
    | player i => exact absurd trivial old
    | agent a =>
      have here : slot a = b := by simpa [Settled, show slot a ∉ done from old] using settled
      refine ⟨_, _, _, ?_, reenters_fit healthy ?_, entered a here⟩
      · simp [entrant, here]
      · rw [decided.loser]
        exact strong side.other
    | battle b' =>
      have here : b' = b := by simpa [Settled, show b' ∉ done from old] using settled
      subst here
      refine ⟨_, _, _, ?_, movesUp_fit healthy ?_, offer⟩
      · simp [entrant]
      · rw [decided.winner]
        exact ⟨decided.alive, strong side⟩

theorem Progress.contestants (healthy : Healthy table) {done : List BattleId} {results : BattleId → Option Result}
    {now : Processes} {b : BattleId} (progress : Progress table done results now) (ready : Ready done b) :
    ∃ (l r : Status) (result : Result) (leaves : Side → Node) (heights : Side → Nat),
      entrant table results (child b .left) = some l ∧
      entrant table results (child b .right) = some r ∧ Fit l ∧ Fit r ∧
      fight (echo table) b (roundsFor table l) l r = some result ∧
      Offer table now (child b .left) (leaves .left) (heights .left) l ∧
      Offer table now (child b .right) (leaves .right) (heights .right) r := by
  obtain ⟨next, settled, -⟩ := ready
  have alone : ∀ side p, above (child b side) = some p → p ∉ done := by
    intro side p higher
    rw [above_child, Option.some.injEq] at higher
    exact higher ▸ next
  obtain ⟨l, leaf, height, entersLeft, fit, left⟩ := progress.offers _ (settled .left) (alone .left)
  obtain ⟨r, leaf', height', entersRight, fit', right⟩ := progress.offers _ (settled .right) (alone .right)
  obtain ⟨result, fought⟩ := fight_total healthy b fit fit'
  exact ⟨l, r, result, Side.pick leaf leaf', Side.pick height height', entersLeft, entersRight, fit, fit', fought,
    left, right⟩

theorem Progress.known_kept {done : List BattleId} {results : BattleId → Option Result} {now after : Processes}
    {b b' : BattleId} {result : Option Result} (progress : Progress table done results now) (next : b ∉ done)
    (kept : ∀ b' result, (now.place (.battle b')).result = some result →
      (after.place (.battle b')).result = some result) (old : b' ∈ done) :
    ∃ l r side found, Known table (Function.update results b result) after b' l r side found := by
  obtain ⟨l, r, side, found, known⟩ := progress.known b' old
  have other : b' ≠ b := by
    rintro rfl
    exact next old
  refine ⟨l, r, side, found, ?_, ?_, ?_, known.decided, kept b' found known.place⟩
  · exact (entrant_kept next (progress.settled b' old .left)).trans known.left
  · exact (entrant_kept next (progress.settled b' old .right)).trans known.right
  · exact (Function.update_of_ne other _ _).trans known.found

theorem progress_step (healthy : Healthy table) {done : List BattleId} {results : BattleId → Option Result}
    {now : Processes} {b : BattleId} (ready : Ready done b) (notLast : b ≠ .A)
    (progress : Progress table done results now) :
    ∃ after result, Within (nodeProgram table) Set.univ now after ∧
      Progress table (done ++ [b]) (Function.update results b (some result)) after ∧
      ((∀ i, (table i).battleEndedFlag = 0) →
        Function.update results b (some result) = evaluate table results b) := by
  obtain ⟨next, contestants, battlesUnder, agentsUnder, -, -⟩ := id ready
  obtain ⟨l, r, result, leaves, heights, entersLeft, entersRight, fit, fit', fought, left, right⟩ :=
    progress.contestants healthy ready
  have agents : ∀ a, slot a = b → tree (.battle b) (.agent a) = false := by
    intro a here
    rw [← Bool.not_eq_true]
    intro inside
    exact next (here ▸ agentsUnder a inside)
  obtain ⟨after, side, ran, passed, decided, place, ⟨leaf'', height'', offer⟩, entered⟩ :=
    battle_passes healthy notLast fit fit' fought (progress.fresh b next) left right agents
      fun a here => progress.idle a (here ▸ next)
  refine ⟨after, result, ran, ⟨?_, ?_, ?_, ?_, ?_, ?_, ?_⟩, ?_⟩
  · intro b' later
    rw [List.mem_append, List.mem_singleton, not_or] at later
    refine passed.fresh ?_ (progress.fresh b' later.1)
    rw [← Bool.not_eq_true]
    intro inside
    exact (battlesUnder b' inside).elim later.2 later.1
  · intro a later
    rw [List.mem_append, List.mem_singleton, not_or] at later
    refine passed.idle ?_ later.2 (progress.idle a later.1)
    rw [← Bool.not_eq_true]
    intro inside
    exact later.1 (agentsUnder a inside)
  · exact offers_step healthy ready progress passed decided fit fit' offer fun a here => (entered a here).1
  · intro b' member side
    rcases List.mem_append.mp member with old | new
    · exact (progress.settled b' old side).mono b
    · rw [List.mem_singleton.mp new]
      exact (contestants side).mono b
  · intro b' member
    rcases List.mem_append.mp member with old | new
    · exact progress.known_kept next passed.results old
    · obtain rfl := List.mem_singleton.mp new
      exact ⟨l, r, side, result, (entrant_kept next (contestants .left)).trans entersLeft,
        (entrant_kept next (contestants .right)).trans entersRight, Function.update_self _ _ _, decided, place⟩
  · intro a member
    rcases List.mem_append.mp member with old | new
    · obtain ⟨result', found, sent, taken⟩ := progress.used a old
      have other : slot a ≠ b := by
        rintro same
        exact next (same ▸ old)
      have still := passed.fifos (agentNumber a) fun number => other ((agentId_iff b a).mp number)
      exact ⟨result', (Function.update_of_ne other _ _).trans found, still.1.trans sent, still.2.trans taken⟩
    · have here := List.mem_singleton.mp new
      exact ⟨result, by rw [here, Function.update_self], (entered a here).2⟩
  · intro k nobody
    have still := passed.fifos k ?_
    · exact still.1.trans (progress.unused k nobody)
    · intro number
      rcases agentId_slot b with ⟨none, -⟩ | ⟨a, -, number'⟩
      · rw [none] at number
        cases number
      · rw [number', Option.some.injEq] at number
        exact nobody a number
  · intro flags
    have plain := fight_plain table b (roundsFor table l) fit fit' (entrant_plain flags entersLeft)
      (entrant_plain flags entersRight)
    rw [evaluate, entersLeft, entersRight]
    exact congrArg (Function.update results b) (fought.symm.trans plain)

-- The real players start with their own status, in any order.
theorem players_enter (players : List (Fin 8)) (once : players.Nodup) (now : Processes)
    (idle : ∀ i ∈ players, now.place (.player i) = .writeUp (playerStatus table i) ∧
      Carries now (.up (.player i)) [] ∧ Carries now (.down (.player i)) []) :
    ∃ after, Within (nodeProgram table) {node | ∃ i ∈ players, node = .player i} now after ∧
      (∀ i ∈ players, Offer table after (.player i) (.player i) 0 (playerStatus table i)) ∧
      ∀ k, Quiet now after (.fifo k) := by
  induction players generalizing now with
  | nil => exact ⟨now, .refl _ now, by simp, fun k => ⟨rfl, rfl⟩⟩
  | cons i rest ih =>
    obtain ⟨fresh, once⟩ := List.nodup_cons.mp once
    obtain ⟨place, up, down⟩ := idle i List.mem_cons_self
    have writes : nodeProgram table (.player i) (now.place (.player i)) =
        .send (.up (.player i)) (playerStatus table i) .readDown := by rw [place]; rfl
    -- one player sends, and the rest of the list finds its pipes as they were
    obtain ⟨middle, taken, place', wrote⟩ := step_send writes
    have offer : Offer table middle (.player i) (.player i) 0 (playerStatus table i) := by
      refine ⟨.player i place', ?_, wrote.carries up, down.quiet (wrote.others _ (by simp))⟩
      rintro _ ⟨⟩
      rfl
    obtain ⟨after, ran, offers, fifos⟩ := ih once middle (by
      intro j member
      obtain ⟨place, up, down⟩ := idle j (List.mem_cons_of_mem i member)
      have other : j ≠ i := by
        rintro rfl
        exact fresh member
      exact ⟨(step_place taken _ (by simpa using other)).trans place,
        up.quiet (wrote.others _ (by simpa using other)), down.quiet (wrote.others _ (by simp))⟩)
    refine ⟨after, ((Within.one taken).mono ?_).trans (ran.mono ?_), ?_, ?_⟩
    · rintro _ rfl
      exact ⟨i, List.mem_cons_self, rfl⟩
    · rintro _ ⟨j, member, rfl⟩
      exact ⟨j, List.mem_cons_of_mem i member, rfl⟩
    · intro j member
      rcases List.mem_cons.mp member with rfl | later
      · refine offer.kept ⟨?_, ?_⟩ ran
        · rintro inner inside ⟨j', member', rfl⟩
          cases tree_player j _ inside
          exact fresh member'
        · rintro p - ⟨j', -, same⟩
          cases same
      · exact offers j later
    · exact fun k => (wrote.others _ (by simp)).trans (fifos k)

theorem start_progress (healthy : Healthy table) :
    ∃ after, Within (nodeProgram table) Set.univ (start table) after ∧
      Progress table [] (fun _ => none) after := by
  have free : ∀ channel, Carries (start table) channel [] := fun channel => ⟨[], rfl, rfl⟩
  obtain ⟨after, ran, offers, fifos⟩ := @players_enter table (List.finRange 8)
    (List.nodup_finRange 8) (start table) fun i _ => ⟨rfl, free _, free _⟩
  have still : ∀ node, (∀ i, node ≠ .player i) → after.place node = (start table).place node ∧
      Carries after (.up node) [] ∧ Carries after (.down node) [] := by
    intro node other
    have outside : node ∉ {node | ∃ i ∈ List.finRange 8, node = .player i} := by
      rintro ⟨i, -, rfl⟩
      exact other i rfl
    obtain ⟨up, down⟩ := pipes_quiet ran outside (by simp)
    exact ⟨ran.place node outside, (free _).quiet up, (free _).quiet down⟩
  refine ⟨after, ran.mono (Set.subset_univ _), ⟨?_, ?_, ?_, by simp, by simp, by simp, ?_⟩⟩
  · intro b _
    obtain ⟨place, up, down⟩ := still (.battle b) (by simp)
    exact ⟨place, up, down⟩
  · intro a _
    obtain ⟨place, up, down⟩ := still (.agent a) (by simp)
    exact ⟨place, up, down, (fifos _).1, (fifos _).2⟩
  · intro node settled _
    cases node with
    | player i => exact ⟨_, _, _, rfl, healthy.fit i, offers i (List.mem_finRange i)⟩
    | agent a => cases settled
    | battle b => cases settled
  · exact fun k _ => (fifos k).1

theorem order_next : ∀ k < 13, order.take (k + 1) = order.take k ++ [order.getD k .A] ∧ order.getD k .A ≠ .A := by
  decide

theorem order_progress (healthy : Healthy table) (k : Nat) (early : k ≤ 13) :
    ∃ after results, Within (nodeProgram table) Set.univ (start table) after ∧
      Progress table (order.take k) results after ∧
      ((∀ i, (table i).battleEndedFlag = 0) →
        results = (order.take k).foldl (evaluate table) fun _ => none) := by
  induction k with
  | zero =>
    obtain ⟨after, ran, progress⟩ := start_progress healthy
    exact ⟨after, _, ran, progress, fun _ => rfl⟩
  | succ k ih =>
    obtain ⟨now, results, ran, progress, same⟩ := ih (by omega)
    obtain ⟨more, notLast⟩ := order_next k (by omega)
    obtain ⟨after, result, ran', progress', next⟩ :=
      progress_step healthy (order_ready k (by omega)) notLast progress
    refine ⟨after, _, ran.trans ran', more ▸ progress', ?_⟩
    intro flags
    rw [next flags, more, List.foldl_append, ← same flags]
    rfl

structure Complete (table : Table) (results : BattleId → Option Result) (final : Processes) : Prop where
  halted : ∀ node, Halted table final node
  known : ∀ b, ∃ l r side result, Known table results final b l r side result
  fifos : ∀ a, ∃ result, results (slot a) = some result ∧
    final.sent (.fifo (agentNumber a)) = [(.player result.loser.realPlayerId, reenters table result.loser)] ∧
    final.taken (.fifo (agentNumber a)) = 1
  unused : ∀ k, (∀ a, agentNumber a ≠ k) → final.sent (.fifo k) = []

theorem tree_all (node : Node) : tree (.battle .A) node = true := by
  revert node
  decide +kernel

theorem slot_early : ∀ a, slot a ∈ order.take 13 ∧ slot a ≠ .A := by
  decide

theorem order_last : ∀ b, b ∈ order.take 13 ∨ b = .A := by
  decide

-- The children of A are battles, so its contestants have won one.
theorem last_plain (table : Table) {results : BattleId → Option Result} {side : Side} {st : Status}
    (enters : entrant table results (child .A side) = some st) : st.battleEndedFlag = 0 := by
  cases side with
  | left =>
    obtain ⟨result, -, rfl⟩ := Option.map_eq_some_iff.mp enters
    rfl
  | right =>
    obtain ⟨result, -, rfl⟩ := Option.map_eq_some_iff.mp enters
    rfl

theorem complete_run (healthy : Healthy table) :
    ∃ labels final results, run (step (nodeProgram table)) (start table) labels = some final ∧
      Complete table results final ∧
      ((∀ i, (table i).battleEndedFlag = 0) → results = reference table) := by
  obtain ⟨now, results, ⟨labels, -, ran⟩, progress, same⟩ := order_progress healthy 13 (Nat.le_refl _)
  have ready : Ready (order.take 13) .A := order_ready 13 (by decide)
  have next := ready.1
  have contestants := ready.2.1
  obtain ⟨l, r, result, leaves, heights, entersLeft, entersRight, fit, fit', fought, left, right⟩ :=
    progress.contestants healthy ready
  -- both contestants of A come from battles, so no flag can stop them early
  have plain := last_plain table entersLeft
  have plain' := last_plain table entersRight
  obtain ⟨final, side, ⟨rest, -, ran'⟩, decided, place, gone, fifos⟩ :=
    last_battle healthy fit fit' (by omega) (by omega) fought (progress.fresh .A next).place left right
  have whole : Within (nodeProgram table) Set.univ now final := ⟨rest, fun p _ => trivial, ran'⟩
  refine ⟨labels ++ rest, final, Function.update results .A (some result),
    (run_append _ _ final labels rest).mpr ⟨now, ran, ran'⟩, ⟨?_, ?_, ?_, ?_⟩, ?_⟩
  · exact fun node => gone node (tree_all node)
  · intro b
    rcases order_last b with old | rfl
    · exact progress.known_kept next (fun b' found known => result_kept whole known) old
    · exact ⟨l, r, side, result, (entrant_kept next (contestants .left)).trans entersLeft,
        (entrant_kept next (contestants .right)).trans entersRight, Function.update_self _ _ _, decided,
        by rw [place]; rfl⟩
  · intro a
    obtain ⟨old, other⟩ := slot_early a
    obtain ⟨result', found, sent, taken⟩ := progress.used a old
    exact ⟨result', (Function.update_of_ne other _ _).trans found, (fifos _).1.trans sent,
      (fifos _).2.trans taken⟩
  · exact fun k nobody => (fifos k).1.trans (progress.unused k nobody)
  · intro flags
    have unflagged := fight_plain table .A (roundsFor table l) fit fit' plain plain'
    have last : reference table = evaluate table results .A := by
      rw [same flags]
      rfl
    rw [last, evaluate, entersLeft, entersRight]
    exact congrArg (Function.update results .A) (fought.symm.trans unflagged)

end SPHomework.Tournament
