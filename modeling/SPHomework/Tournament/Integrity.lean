import SPHomework.Tournament.Champion

set_option autoImplicit false

/-!
# The bracket adds up

Of the two that come to a battle one wins and one loses. Counted over the table
this says who can have lost where.
-/

namespace SPHomework.Tournament

open Lib Network

variable {table : Table}

def upper : List BattleId := [.G, .H, .I, .J, .D, .E, .B]

def lower : List BattleId := [.M, .N, .K, .L, .F, .C]

def same (i j : Fin 8) : Nat := if j = i then 1 else 0

theorem same_once (i : Fin 8) :
    same i 0 + same i 1 + same i 2 + same i 3 + same i 4 + same i 5 + same i 6 + same i 7 = 1 := by
  revert i
  decide

/-- How often a player comes out of a process, given how often he has won and lost each battle. -/
def comes (i : Fin 8) (won lost : BattleId → Nat) : Node → Nat
  | .player j => same i j
  | .agent a => lost (slot a)
  | .battle b => won b

def Balanced (i : Fin 8) (won lost : BattleId → Nat) : Prop :=
  ∀ b, won b + lost b = comes i won lost (child b .left) + comes i won lost (child b .right)

structure Meets (i : Fin 8) (won lost : BattleId → Nat) : Prop where
  G : won .G + lost .G = same i 0 + same i 1
  H : won .H + lost .H = same i 2 + same i 3
  I : won .I + lost .I = same i 4 + same i 5
  J : won .J + lost .J = same i 6 + same i 7
  D : won .D + lost .D = won .G + won .H
  E : won .E + lost .E = won .I + won .J
  B : won .B + lost .B = won .D + won .E
  M : won .M + lost .M = lost .G + lost .I
  N : won .N + lost .N = lost .H + lost .J
  K : won .K + lost .K = won .M + lost .D
  L : won .L + lost .L = won .N + lost .E
  F : won .F + lost .F = won .K + won .L
  C : won .C + lost .C = won .F + lost .B
  A : won .A + lost .A = won .B + won .C

section

variable {i : Fin 8} {won lost : BattleId → Nat}

theorem Balanced.meets (balanced : Balanced i won lost) : Meets i won lost :=
  ⟨balanced .G, balanced .H, balanced .I, balanced .J, balanced .D, balanced .E, balanced .B, balanced .M,
    balanced .N, balanced .K, balanced .L, balanced .F, balanced .C, balanced .A⟩

theorem Balanced.apart (balanced : Balanced i won lost) (b : BattleId) :
    comes i won lost (child b .left) + comes i won lost (child b .right) ≤ 1 := by
  obtain ⟨G, H, I, J, D, E, B, M, N, K, L, F, C, A⟩ := balanced.meets
  have once := same_once i
  rw [← balanced b]
  cases b <;> omega

-- Each battle of the upper bracket takes a player out of it, and one is left.
theorem Meets.upper (meets : Meets i won lost) :
    lost .G + lost .H + lost .I + lost .J + lost .D + lost .E + lost .B + won .B = 1 := by
  obtain ⟨G, H, I, J, D, E, B, -⟩ := meets
  have once := same_once i
  omega

-- The losers of the upper bracket come to the lower one, where one is left too.
theorem Meets.lower (meets : Meets i won lost) :
    lost .M + lost .N + lost .K + lost .L + lost .F + lost .C + won .C =
      lost .G + lost .H + lost .I + lost .J + lost .D + lost .E + lost .B := by
  obtain ⟨-, -, -, -, -, -, -, M, N, K, L, F, C, -⟩ := meets
  omega

end

def Local.wonBy (i : Fin 8) (place : Local) : Nat :=
  place.result.elim 0 fun result => same i result.winner.realPlayerId

def Local.lostBy (i : Fin 8) (place : Local) : Nat :=
  place.result.elim 0 fun result => same i result.loser.realPlayerId

def losses (now : Processes) (bs : List BattleId) (i : Fin 8) : Nat :=
  bs.foldr (fun b total => (now.place (.battle b)).lostBy i + total) 0

theorem Decided.ids {b : BattleId} {l r : Status} {side : Side} {result : Result}
    (decided : Decided b l r side result) (i : Fin 8) :
    same i result.winner.realPlayerId + same i result.loser.realPlayerId =
      same i l.realPlayerId + same i r.realPlayerId := by
  have left : result.left.realPlayerId = l.realPlayerId := by rw [decided.left]
  have right : result.right.realPlayerId = r.realPlayerId := by rw [decided.right]
  rw [decided.winner, decided.loser]
  cases side with
  | left => simp only [Result.status, Side.other, left, right]
  | right => simp only [Result.status, Side.other, left, right, Nat.add_comm]

section

variable {results : BattleId → Option Result} {final : Processes} (complete : Complete table results final)

include complete

theorem Complete.result (b : BattleId) : (final.place (.battle b)).result = results b := by
  obtain ⟨l, r, side, result, known⟩ := complete.known b
  rw [known.place, known.found]

theorem Complete.enters {node : Node} {st : Status} (enters : entrant table results node = some st) (i : Fin 8) :
    comes i (fun b => (final.place (.battle b)).wonBy i) (fun b => (final.place (.battle b)).lostBy i) node =
      same i st.realPlayerId := by
  cases node with
  | player j =>
    obtain rfl := Option.some.inj enters
    rfl
  | agent a =>
    obtain ⟨result, found, rfl⟩ := Option.map_eq_some_iff.mp enters
    simp only [comes, Local.lostBy, complete.result, found]
    rfl
  | battle b =>
    obtain ⟨result, found, rfl⟩ := Option.map_eq_some_iff.mp enters
    simp only [comes, Local.wonBy, complete.result, found]
    rfl

theorem Complete.balanced (i : Fin 8) :
    Balanced i (fun b => (final.place (.battle b)).wonBy i) fun b => (final.place (.battle b)).lostBy i := by
  intro b
  obtain ⟨l, r, side, result, known⟩ := complete.known b
  rw [complete.enters known.left, complete.enters known.right, ← known.decided.ids i]
  simp only [Local.wonBy, Local.lostBy, known.place]
  rfl

theorem Complete.different (b : BattleId) : ∃ result, (final.place (.battle b)).result = some result ∧
    result.left.realPlayerId ≠ result.right.realPlayerId ∧
      result.ending.winner = result.winner.realPlayerId := by
  obtain ⟨l, r, side, result, known⟩ := complete.known b
  refine ⟨result, known.place, ?_, known.decided.champion⟩
  rw [known.decided.left, known.decided.right]
  show l.realPlayerId ≠ r.realPlayerId
  intro both
  -- counted for the player on the left, nobody else can be that player
  have apart := (complete.balanced l.realPlayerId).apart b
  rw [complete.enters known.left, complete.enters known.right, ← both] at apart
  simp [same] at apart

end

def breaks (b : BattleId) (now : Processes) (node : Node) : Bool :=
  match now.place (.battle b) with
  | .writeRight _ _ (some _) => node = .battle b
  | _ => false

def found (b : BattleId) (now : Processes) : Nat := (now.place (.battle b)).result.isSome.toNat

theorem found_step {b : BattleId} {now next : Processes} {node : Node}
    (taken : now.step (nodeProgram table) node = some next) :
    found b next = found b now + (breaks b now node).toNat := by
  by_cases own : node = .battle b
  · subst own
    obtain ⟨place, can, rfl⟩ := Network.step_eq.mp taken
    simp only [found, breaks, Network.move, Function.update_self]
    -- only the write that follows the end of the fight brings a result, and none is forgotten
    cases here : now.place (.battle b) <;>
      simp only [here, nodeProgram, battleProgram, ready, reduceCtorEq, Option.some.injEq,
        Option.map_eq_some_iff] at can
    case writeRight left right ending =>
      cases ending <;> (subst can; rfl)
    all_goals
      first
      | (obtain ⟨_, -, rfl⟩ := can; rfl)
      | (split_ifs at can <;> cases can <;> rfl)
  · have other : breaks b now node = false := by
      unfold breaks
      split
      · simpa using own
      · rfl
    rw [found, step_place taken _ (Ne.symm own), other]
    rfl

-- A player that does not know where to write would never go home.
theorem agent_assigned (healthy : Healthy table) {labels : List Node} {now : Processes}
    (ran : run (step (nodeProgram table)) (start table) labels = some now) (i : Fin 8) (st : Status) :
    now.place (.player i) ≠ .writeFifo none st := by
  intro lost
  obtain ⟨whole, final, results, complete, -, every⟩ := runs_complete healthy
  obtain ⟨rest, ran', -⟩ := every labels now ran
  refine never_wrong (complete.halted (.player i)) ran' ?_
  rw [lost]
  rfl

theorem losses_all (now : Processes) (i : Fin 8) :
    losses now battles i =
      losses now upper i + losses now lower i + (now.place (.battle .A)).lostBy i := by
  simp only [losses, battles, upper, lower, List.foldr_cons, List.foldr_nil]
  omega

theorem Complete.upper_once {results : BattleId → Option Result} {final : Processes}
    (complete : Complete table results final) (i : Fin 8) :
    losses final upper i + (final.place (.battle .B)).wonBy i = 1 := by
  have once := (complete.balanced i).meets.upper
  simp only [losses, upper, List.foldr_cons, List.foldr_nil]
  omega

theorem Complete.lower_once {results : BattleId → Option Result} {final : Processes}
    (complete : Complete table results final) (i : Fin 8) :
    losses final lower i + (final.place (.battle .C)).wonBy i = losses final upper i := by
  have once := (complete.balanced i).meets.lower
  simp only [losses, upper, lower, List.foldr_cons, List.foldr_nil]
  omega

theorem Complete.counts {results : BattleId → Option Result} {labels : List Node} {final : Processes}
    (complete : Complete table results final)
    (ran : run (step (nodeProgram table)) (start table) labels = some final) :
    ∃ last, (final.place (.battle .A)).result = some last ∧
      (∀ i, i ≠ last.left.realPlayerId → i ≠ last.right.realPlayerId →
        losses final upper i = 1 ∧ losses final lower i = 1 ∧
          losses final battles i = 2) ∧
      ∃ champion, final.output (.battle .A) = [champion] ∧ losses final battles champion ≤ 1 := by
  obtain ⟨l, r, side, last, known⟩ := complete.known .A
  have left : last.left.realPlayerId = l.realPlayerId := by rw [known.decided.left]
  have right : last.right.realPlayerId = r.realPlayerId := by rw [known.decided.right]
  have fromB : ∀ i, (final.place (.battle .B)).wonBy i = same i l.realPlayerId := complete.enters known.left
  have fromC : ∀ i, (final.place (.battle .C)).wonBy i = same i r.realPlayerId := complete.enters known.right
  have final' : ∀ i, (final.place (.battle .A)).wonBy i + (final.place (.battle .A)).lostBy i =
      (final.place (.battle .B)).wonBy i + (final.place (.battle .C)).wonBy i :=
    fun i => (complete.balanced i).meets.A
  refine ⟨last, known.place, ?_, ?_⟩
  · intro i notLeft notRight
    have upper := complete.upper_once i
    have lower := complete.lower_once i
    have all := losses_all final i
    have last := final' i
    have notB : (final.place (.battle .B)).wonBy i = 0 := by
      rw [fromB, same, if_neg fun here => notLeft (here.symm.trans left.symm)]
    have notC : (final.place (.battle .C)).wonBy i = 0 := by
      rw [fromC, same, if_neg fun here => notRight (here.symm.trans right.symm)]
    omega
  · obtain ⟨result, here, printed⟩ := complete.printed ran
    obtain rfl : result = last := Option.some.inj (here.symm.trans known.found)
    refine ⟨_, printed, ?_⟩
    have upper := complete.upper_once result.winner.realPlayerId
    have lower := complete.lower_once result.winner.realPlayerId
    have all := losses_all final result.winner.realPlayerId
    have won := final' result.winner.realPlayerId
    have one : (final.place (.battle .A)).wonBy result.winner.realPlayerId = 1 := by
      simp [Local.wonBy, known.place, same]
    omega

/-- In a complete run, with any flags in the table. -/
theorem bracket_integrity (healthy : Healthy table) {labels : List Node} {final : Processes}
    (ran : run (step (nodeProgram table)) (start table) labels = some final)
    (stuck : ∀ node, final.step (nodeProgram table) node = none) :
    (∀ b, occurrences (step (nodeProgram table)) (breaks b) (start table) labels = 1 ∧
      ∃ result, (final.place (.battle b)).result = some result ∧
        result.left.realPlayerId ≠ result.right.realPlayerId ∧
        result.ending.winner = result.winner.realPlayerId) ∧
    (∀ a, ∃ i st, final.sent (.fifo (agentNumber a)) = [(.player i, st)] ∧
      final.taken (.fifo (agentNumber a)) = 1) ∧
    (∀ taken now, run (step (nodeProgram table)) (start table) taken = some now →
      ∀ i st, now.place (.player i) ≠ .writeFifo none st) ∧
    ∃ last, (final.place (.battle .A)).result = some last ∧
      (∀ i, i ≠ last.left.realPlayerId → i ≠ last.right.realPlayerId →
        losses final upper i = 1 ∧ losses final lower i = 1 ∧ losses final battles i = 2) ∧
      ∃ champion, final.output (.battle .A) = [champion] ∧ losses final battles champion ≤ 1 := by
  obtain ⟨whole, last, results, complete, -, every⟩ := runs_complete healthy
  obtain ⟨rest, ran', -⟩ := every labels final ran
  obtain rfl := stuck_final ran' stuck
  refine ⟨?_, ?_, fun taken now went => agent_assigned healthy went, complete.counts ran⟩
  · intro b
    obtain ⟨result, here, different⟩ := complete.different b
    refine ⟨?_, result, here, different⟩
    have counted := run_occurrences (step (nodeProgram table)) (breaks b) (found b)
      (fun _ _ _ taken => found_step taken) (start table) final labels ran
    have before : found b (start table) = 0 := rfl
    have after : found b final = 1 := by rw [found, here]; rfl
    omega
  · intro a
    obtain ⟨result, -, sent, taken⟩ := complete.fifos a
    exact ⟨_, _, sent, taken⟩

end SPHomework.Tournament
