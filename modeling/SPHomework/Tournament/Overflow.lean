import SPHomework.Tournament.Battle
import SPHomework.Tournament.Integrity
import SPHomework.Tournament.Links
import SPHomework.Tournament.Machine

set_option autoImplicit false

/-!
# The tournament on the machine

With moderate numbers nobody waits for ever and the bracket adds up. An HP that
wraps when it is healed wins a battle with nobody alive.
-/

namespace SPHomework.Tournament

open Lib Network

variable {table : Table} {labels : List Node} {now : Processes}

theorem machine_kept (moderate : Moderate table)
    (ran : run (step (nodeProgram32 table)) (start table) labels = some now) :
    run (step (nodeProgram table)) (start table) labels = some now ∧
      ∀ node, now.step (nodeProgram32 table) node = now.step (nodeProgram table) node := by
  rw [machine_runs moderate] at ran
  have kept := kept_run (node_contract moderate) (start_kept moderate) ran
  exact ⟨ran, fun node => machine_step moderate now node kept⟩

-- Player 0 beats anybody at once, and no longer counts as alive once he has won.
def boastful : Table := fun i => ⟨if i.val = 0 then 2147483647 else 1, 1, ['F', 'I', 'R', 'E'], 'G', 0⟩

-- D ends with two losers. Both write to agent 10, and D waits for a winner who has left.
theorem boastful_stuck : ∃ labels final,
    run (step (nodeProgram32 boastful)) (start boastful) labels = some final ∧
      (∀ node, final.step (nodeProgram32 boastful) node = none) ∧
      final.halted (nodeProgram32 boastful) (.battle .D) = false ∧
      (final.sent (.fifo 10)).length = 2 := by
  obtain ⟨labels, checked⟩ : ∃ labels,
      (run (step (nodeProgram32 boastful)) (start boastful) labels).elim false (fun final =>
        nodes.all (fun node => (final.step (nodeProgram32 boastful) node).isNone) &&
          !final.halted (nodeProgram32 boastful) (.battle .D) && (final.sent (.fifo 10)).length == 2) = true := by
    refine ⟨[
      .player 0, .battle .G, .player 1, .battle .G, .battle .G, .battle .G, .player 0, .player 0, .player 1,
      .player 1, .battle .G, .battle .G, .battle .G, .battle .D, .player 2, .battle .H, .player 3, .battle .H,
      .battle .H, .battle .H, .player 2, .player 2, .player 3, .player 3, .battle .H, .battle .H, .battle .H,
      .battle .D, .battle .D, .battle .D, .battle .G, .battle .G, .battle .H, .battle .H, .player 0, .player 0,
      .battle .G, .player 2, .player 2, .battle .H, .battle .D, .player 4, .battle .I, .player 5, .battle .I,
      .battle .I, .battle .I, .player 4, .player 4, .player 5, .player 5, .battle .I, .battle .I, .battle .I,
      .battle .E, .player 6, .battle .J, .player 7, .battle .J, .battle .J, .battle .J, .player 6, .player 6,
      .player 7, .player 7, .battle .J, .battle .J, .battle .J, .battle .E, .battle .E, .battle .E, .battle .I,
      .battle .I, .battle .J, .battle .J, .player 4, .player 4, .battle .I, .battle .I, .player 6, .player 6,
      .battle .J, .battle .E, .battle .E, .battle .E, .agent 0, .agent 0, .battle .M, .agent 1, .agent 1, .battle .M,
      .battle .M, .battle .M, .agent 0, .agent 0, .agent 1, .battle .M, .battle .M, .battle .M, .battle .K, .agent 2,
      .agent 2, .battle .K, .battle .K, .battle .K, .battle .M, .battle .M, .agent 0, .battle .M, .battle .K,
      .agent 2, .agent 2, .battle .K, .battle .K, .battle .F, .agent 3, .agent 3, .battle .N, .agent 4, .agent 4,
      .battle .N, .battle .N, .battle .N, .agent 3, .agent 3, .agent 4, .battle .N, .battle .N, .battle .N,
      .battle .L, .agent 5, .agent 5, .battle .L, .battle .L, .battle .L, .battle .N, .battle .N, .agent 3, .agent 3,
      .battle .N, .battle .N, .agent 5, .battle .L, .battle .L, .battle .L, .battle .F, .battle .F, .battle .F,
      .battle .K, .battle .K, .battle .L, .battle .L, .battle .N, .battle .N, .agent 2, .battle .K, .agent 3,
      .battle .N, .battle .L, .battle .F], ?_⟩
    decide +kernel
  cases ran : run (step (nodeProgram32 boastful)) (start boastful) labels with
  | none =>
    rw [ran] at checked
    cases checked
  | some final =>
    rw [ran] at checked
    simp only [Option.elim_some, Bool.and_eq_true, List.all_eq_true, Option.isNone_iff_eq_none, Bool.not_eq_true',
      beq_iff_eq] at checked
    obtain ⟨⟨stuck, alive⟩, twice⟩ := checked
    exact ⟨labels, final, ran, fun node => stuck node (mem_nodes node), alive, twice⟩

/-- Moderate numbers: some process can go on until all have exited and A has printed a champion. -/
theorem machine_never_stuck (moderate : Moderate table)
    (ran : run (step (nodeProgram32 table)) (start table) labels = some now) :
    ((∃ node, now.halted (nodeProgram32 table) node = false) →
      ∃ node next, now.step (nodeProgram32 table) node = some next) ∧
    ((∀ node, now.step (nodeProgram32 table) node = none) →
      (∀ node, now.halted (nodeProgram32 table) node = true) ∧
        ∃ champion, now.output (.battle .A) = [champion]) := by
  obtain ⟨exact_, same⟩ := machine_kept moderate ran
  have never := never_stuck moderate.toHealthy exact_
  simp only [halted32, same]
  exact never

theorem machine_never_stuck_sample :
    (∃ node next, (start sample).step (nodeProgram32 sample) node = some next) ∧
    ∃ labels final, run (step (nodeProgram32 sample)) (start sample) labels = some final ∧
      ∀ node, final.halted (nodeProgram32 sample) node = true := by
  have begins : run (step (nodeProgram32 sample)) (start sample) [] = some (start sample) := rfl
  obtain ⟨labels, final, ran, stuck⟩ := sample_complete
  rw [← machine_runs sample_moderate] at ran
  have stuck' : ∀ node, final.step (nodeProgram32 sample) node = none := fun node =>
    ((machine_kept sample_moderate ran).2 node).trans (stuck node)
  exact ⟨(machine_never_stuck sample_moderate begins).1 ⟨.battle .A, by decide⟩, labels, final, ran,
    ((machine_never_stuck sample_moderate ran).2 stuck').1⟩

theorem wrapped_gets_stuck : Healthy boastful ∧ (∀ i, (boastful i).battleEndedFlag = 0) ∧
    ∃ labels now, run (step (nodeProgram32 boastful)) (start boastful) labels = some now ∧
      (∃ node, now.halted (nodeProgram32 boastful) node = false) ∧
      ∀ node, now.step (nodeProgram32 boastful) node = none := by
  obtain ⟨labels, final, ran, stuck, alive, -⟩ := boastful_stuck
  exact ⟨⟨by decide, by decide⟩, by decide, labels, final, ran, ⟨_, alive⟩, stuck⟩

/-- In a complete run with moderate numbers, with any flags in the table. -/
theorem machine_bracket_integrity (moderate : Moderate table)
    (ran : run (step (nodeProgram32 table)) (start table) labels = some now)
    (stuck : ∀ node, now.step (nodeProgram32 table) node = none) :
    (∀ b, occurrences (step (nodeProgram32 table)) (breaks b) (start table) labels = 1 ∧
      ∃ result, (now.place (.battle b)).result = some result ∧
        result.left.realPlayerId ≠ result.right.realPlayerId ∧
        result.ending.winner = result.winner.realPlayerId) ∧
    (∀ a, ∃ i st, now.sent (.fifo (agentNumber a)) = [(.player i, st)] ∧
      now.taken (.fifo (agentNumber a)) = 1) ∧
    (∀ taken before, run (step (nodeProgram32 table)) (start table) taken = some before →
      ∀ i st, before.place (.player i) ≠ .writeFifo none st) ∧
    ∃ last, (now.place (.battle .A)).result = some last ∧
      (∀ i, i ≠ last.left.realPlayerId → i ≠ last.right.realPlayerId →
        losses now upper i = 1 ∧ losses now lower i = 1 ∧ losses now battles i = 2) ∧
      ∃ champion, now.output (.battle .A) = [champion] ∧ losses now battles champion ≤ 1 := by
  obtain ⟨exact_, same⟩ := machine_kept moderate ran
  have done : ∀ node, now.step (nodeProgram table) node = none := fun node => (same node).symm.trans (stuck node)
  have counted : ∀ b, occurrences (step (nodeProgram32 table)) (breaks b) (start table) labels =
      occurrences (step (nodeProgram table)) (breaks b) (start table) labels := fun b =>
    occurrences_agree _ _ (breaks b) (Kept (fun _ => Promised) PromisedOn)
      (fun _ _ _ kept stepped => kept.step (node_contract moderate) stepped)
      (fun now node kept => machine_step moderate now node kept) _ labels (start_kept moderate)
  have integrity := bracket_integrity moderate.toHealthy exact_ done
  simp only [counted, machine_runs moderate]
  exact integrity

theorem machine_bracket_integrity_sample : ∃ labels final,
    run (step (nodeProgram32 sample)) (start sample) labels = some final ∧
      (∀ b, occurrences (step (nodeProgram32 sample)) (breaks b) (start sample) labels = 1) ∧
      ∃ champion, final.output (.battle .A) = [champion] ∧ losses final battles champion ≤ 1 := by
  obtain ⟨labels, final, ran, stuck⟩ := sample_complete
  rw [← machine_runs sample_moderate] at ran
  obtain ⟨once, -, -, last, -, -, champion⟩ := machine_bracket_integrity sample_moderate ran fun node =>
    ((machine_kept sample_moderate ran).2 node).trans (stuck node)
  exact ⟨labels, final, ran, fun b => (once b).1, champion⟩

theorem wrapped_writes_twice : Healthy boastful ∧
    ∃ labels now, run (step (nodeProgram32 boastful)) (start boastful) labels = some now ∧
      (∀ node, now.step (nodeProgram32 boastful) node = none) ∧
      ¬ ∀ a, ∃ i st, now.sent (.fifo (agentNumber a)) = [(.player i, st)] := by
  obtain ⟨labels, final, ran, stuck, -, twice⟩ := boastful_stuck
  refine ⟨⟨by decide, by decide⟩, labels, final, ran, stuck, fun single => ?_⟩
  obtain ⟨i, st, one⟩ := single 2
  rw [show agentNumber 2 = 10 from rfl] at one
  simp [one] at twice

theorem battleRound32_mirror (b : BattleId) (l r : Status) (different : l.realPlayerId ≠ r.realPlayerId) :
    battleRound32 b r l =
      ((battleRound32 b l r).2.1, (battleRound32 b l r).1, (battleRound32 b l r).2.2.map Ending.mirror) :=
  battleRoundBy_mirror Status.struck32 b l r different

-- Two places that serve the links alike.
structure Serves (here there : Local) : Prop where
  waiting : there.waiting = here.waiting
  owes : ∀ side, there.owes side = here.owes side
  ends : here.Over → there.Over

theorem Serves.refl (place : Local) : Serves place place := ⟨rfl, fun _ => rfl, id⟩

/-- The numbers do not tell a process whom to wait for. -/
theorem machine_serves (table : Table) : Alike (nodeProgram table) (nodeProgram32 table) Serves := by
  intro node place
  cases node with
  | battle b =>
    cases place with
    | readRight l => exact .inr ⟨_, _, _, rfl, rfl, fun st => ⟨rfl, fun _ => rfl, id⟩⟩
    | _ => exact .inl rfl
  | player i =>
    cases place with
    | readDown =>
      refine .inr ⟨_, _, _, rfl, rfl, fun st => ?_⟩
      simp only [playerAnswer, playerAnswer32]
      split_ifs <;> exact ⟨rfl, fun _ => rfl, id⟩
    | _ => exact .inl rfl
  | agent a =>
    cases place with
    | readDown =>
      refine .inr ⟨_, _, _, rfl, rfl, fun st => ?_⟩
      simp only [agentAnswer, agentAnswer32]
      split_ifs <;> exact ⟨rfl, fun _ => rfl, id⟩
    | _ => exact .inl rfl

/-- The links keep their pace whatever the numbers wrap to. -/
theorem machine_links_alternate (ran : run (step (nodeProgram32 table)) (start table) labels = some now)
    (b : BattleId) (side : Side) :
    (now.inFlight (.up (child b side))).length + (now.inFlight (.down (child b side))).length ≤ 1 ∧
    Alternates (.up (child b side)) (.down (child b side))
      (((start table).traffic (nodeProgram32 table) (.up (child b side)) (.down (child b side)) labels).map
        Prod.fst) ∧
    ∀ before status rest, status.Stop →
      (start table).traffic (nodeProgram32 table) (.up (child b side)) (.down (child b side)) labels =
        before ++ (.down (child b side), status) :: rest → rest = [] := by
  have link := (child_link table b side).alike Serves.refl (machine_serves table) Serves.waiting (Serves.owes · side)
  have stops := (child_stops table (child b side)).alike Serves.refl (machine_serves table) Serves.ends
  have paced := start_paced table b side
  refine ⟨(link.run paced ran).single, (link.alternates paced ran).1 rfl, ?_⟩
  intro before status rest stop split
  exact link.stop_last stops paced ran stop split

end SPHomework.Tournament
