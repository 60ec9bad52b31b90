import SPHomework.Tournament.Schedule

set_option autoImplicit false

/-!
# All runs

Every run is a part of the complete one, up to the order of its steps. So what
the complete run has found is what any schedule finds, and no schedule gets stuck.
-/

namespace SPHomework.Tournament

open Lib Network

variable {table : Table}

theorem fifo_single {results : BattleId → Option Result} {final : Processes}
    (complete : Complete table results final) (channel : Channel) (shared : IsFifo channel) :
    (final.sent channel).length ≤ 1 := by
  cases channel with
  | up node => cases shared
  | down node => cases shared
  | fifo k =>
    by_cases used : ∃ a, agentNumber a = k
    · obtain ⟨a, rfl⟩ := used
      obtain ⟨result, -, sent, -⟩ := complete.fifos a
      simp [sent]
    · have unused := complete.unused k fun a same => used ⟨a, same⟩
      simp [unused]

theorem runs_complete (healthy : Healthy table) :
    ∃ labels final results, Complete table results final ∧
      ((∀ i, (table i).battleEndedFlag = 0) → results = reference table) ∧
      ∀ taken now, run (step (nodeProgram table)) (start table) taken = some now →
        ∃ rest, run (step (nodeProgram table)) now rest = some final ∧ (taken ++ rest).Perm labels := by
  obtain ⟨labels, final, results, ran, complete, same⟩ := complete_run healthy
  exact ⟨labels, final, results, complete, same, fun taken now went =>
    (nodeProgram_wired table).complete complete.halted (fifo_single complete) ran went⟩

theorem runs_bounded (healthy : Healthy table) :
    ∃ bound, ∀ taken now, run (step (nodeProgram table)) (start table) taken = some now →
      taken.length ≤ bound := by
  obtain ⟨labels, final, results, -, -, every⟩ := runs_complete healthy
  refine ⟨labels.length, ?_⟩
  intro taken now went
  obtain ⟨rest, -, perm⟩ := every taken now went
  have same := perm.length_eq
  rw [List.length_append] at same
  omega

theorem stuck_final {now final : Processes} {rest : List Node}
    (ran : run (step (nodeProgram table)) now rest = some final)
    (stuck : ∀ node, now.step (nodeProgram table) node = none) : now = final :=
  run_stuck ran stuck

theorem result_found {results : BattleId → Option Result} {now final : Processes} {rest : List Node}
    {b : BattleId} {result : Result} (complete : Complete table results final)
    (ran : run (step (nodeProgram table)) now rest = some final)
    (found : (now.place (.battle b)).result = some result) : results b = some result := by
  obtain ⟨l, r, side, last, known⟩ := complete.known b
  have whole : Within (nodeProgram table) Set.univ now final := ⟨rest, fun p _ => trivial, ran⟩
  have same := (result_kept whole found).symm.trans known.place
  rw [known.found, same]

/-- What the process of battle A has printed at a place. It never passes anything on. -/
def Local.printed : Local → Option (List (Fin 8))
  | .waitLast result => some [result.ending.winner]
  | .returned result => some [result.ending.winner]
  | .readWinner _ => none
  | .writeParent _ _ => none
  | .readParent _ => none
  | .writeWinner _ _ => none
  | _ => some []

theorem printed_step {now next : Processes} {node : Node}
    (printed : (now.place (.battle .A)).printed = some (now.output (.battle .A)))
    (taken : now.step (nodeProgram table) node = some next) :
    (next.place (.battle .A)).printed = some (next.output (.battle .A)) := by
  by_cases own : node = .battle .A
  · subst own
    obtain ⟨place, can, rfl⟩ := Network.step_eq.mp taken
    simp only [Network.move, Function.update_self]
    -- A has no parent, so its process never enters the loop that relays
    cases here : now.place (.battle .A) <;>
      simp only [here, Local.printed, reduceCtorEq, Option.some.injEq] at printed <;>
      simp only [here, nodeProgram, battleProgram, ready, reduceCtorEq, Option.some.injEq, btl, if_true,
        Option.map_eq_some_iff] at can <;>
      simp only [nodeProgram, battleProgram, effect]
    case writeRight left right ending =>
      cases ending <;> (subst can; exact congrArg some printed)
    case printWinner result =>
      subst can
      rw [Function.update_self, ← printed]
      rfl
    all_goals
      first
      | (obtain ⟨_, -, rfl⟩ := can; exact congrArg some printed)
      | (split_ifs at can; cases can; exact congrArg some printed)
  · rw [step_place taken _ (Ne.symm own), step_output taken _ (Ne.symm own)]
    exact printed

theorem printed_run {labels : List Node} {now : Processes}
    (ran : run (step (nodeProgram table)) (start table) labels = some now) :
    (now.place (.battle .A)).printed = some (now.output (.battle .A)) :=
  run_invariant (step (nodeProgram table))
    (fun now => (now.place (.battle .A)).printed = some (now.output (.battle .A)))
    (fun _ _ _ printed taken => printed_step printed taken) (start table) now labels rfl ran

theorem Local.printed_result {place : Local} {champion : Fin 8} {texts : List (Fin 8)}
    (printed : place.printed = some texts) (member : champion ∈ texts) :
    ∃ result, place.result = some result ∧ champion = result.ending.winner := by
  cases place <;> simp only [Local.printed, reduceCtorEq, Option.some.injEq] at printed <;> subst printed
  case waitLast result => exact ⟨result, rfl, List.mem_singleton.mp member⟩
  case returned result => exact ⟨result, rfl, List.mem_singleton.mp member⟩
  all_goals cases member

theorem halted_battle {now : Processes} {b : BattleId} (done : Halted table now (.battle b)) :
    ∃ result, now.place (.battle b) = .returned result := by
  cases here : now.place (.battle b)
  case returned result => exact ⟨result, rfl⟩
  all_goals simp [Halted, halted, here, nodeProgram, battleProgram, Action.isHalt] at done

theorem Decided.champion {b : BattleId} {l r : Status} {side : Side} {result : Result}
    (decided : Decided b l r side result) : result.ending.winner = result.winner.realPlayerId := by
  rw [decided.winner, decided.ending]
  rfl

theorem Complete.printed {results : BattleId → Option Result} {labels : List Node} {final : Processes}
    (complete : Complete table results final)
    (ran : run (step (nodeProgram table)) (start table) labels = some final) :
    ∃ result, results .A = some result ∧ final.output (.battle .A) = [result.winner.realPlayerId] := by
  obtain ⟨l, r, side, result, known⟩ := complete.known .A
  obtain ⟨last, place⟩ := halted_battle (complete.halted (.battle .A))
  have same : last = result := by
    have found := known.place
    rw [place] at found
    exact Option.some.inj found
  subst same
  have printed := printed_run ran
  rw [place] at printed
  refine ⟨last, known.found, ?_⟩
  rw [← known.decided.champion]
  exact (Option.some.inj printed).symm

/-- Whatever the schedule, the battles find the results of the reference, and A prints its champion. -/
theorem tournament_refines_reference (healthy : Healthy table)
    (flags : ∀ i, (table i).battleEndedFlag = 0) {labels : List Node} {now : Processes}
    (ran : run (step (nodeProgram table)) (start table) labels = some now) :
    (∀ b result, (now.place (.battle b)).result = some result →
      reference table b = some result ∧ result.ending.winner = result.winner.realPlayerId) ∧
    (∀ champion ∈ now.output (.battle .A), ∃ result, reference table .A = some result ∧
      champion = result.winner.realPlayerId) ∧
    ((∀ node, now.step (nodeProgram table) node = none) →
      (∀ b, ∃ result, reference table b = some result ∧ (now.place (.battle b)).result = some result) ∧
      ∃ result, reference table .A = some result ∧
        now.output (.battle .A) = [result.winner.realPlayerId]) := by
  obtain ⟨whole, final, results, complete, same, every⟩ := runs_complete healthy
  obtain ⟨rest, ran', -⟩ := every labels now ran
  obtain rfl := same flags
  have found : ∀ b result, (now.place (.battle b)).result = some result →
      reference table b = some result ∧ result.ending.winner = result.winner.realPlayerId := by
    intro b result here
    have known := result_found complete ran' here
    obtain ⟨l, r, side, last, all⟩ := complete.known b
    obtain rfl : last = result := Option.some.inj (all.found.symm.trans known)
    exact ⟨known, all.decided.champion⟩
  refine ⟨found, ?_, ?_⟩
  · intro champion member
    obtain ⟨result, here, rfl⟩ := Local.printed_result (printed_run ran) member
    exact ⟨result, found .A result here⟩
  · intro stuck
    obtain rfl := stuck_final ran' stuck
    refine ⟨?_, complete.printed ran⟩
    intro b
    obtain ⟨l, r, side, result, known⟩ := complete.known b
    exact ⟨result, known.found, known.place⟩

-- The table of `player_status.txt`.
def sample : Table
  | 0 => ⟨7, 2, ['F', 'I', 'R', 'E'], 'G', 0⟩
  | 1 => ⟨8, 3, ['G', 'R', 'A', 'S', 'S'], 'G', 0⟩
  | 2 => ⟨4, 4, ['F', 'I', 'R', 'E'], 'H', 0⟩
  | 3 => ⟨1, 4, ['G', 'R', 'A', 'S', 'S'], 'H', 0⟩
  | 4 => ⟨12, 2, ['W', 'A', 'T', 'E', 'R'], 'I', 0⟩
  | 5 => ⟨3, 4, ['G', 'R', 'A', 'S', 'S'], 'I', 0⟩
  | 6 => ⟨7, 3, ['W', 'A', 'T', 'E', 'R'], 'J', 0⟩
  | 7 => ⟨10, 2, ['W', 'A', 'T', 'E', 'R'], 'J', 0⟩

theorem sample_healthy : Healthy sample := ⟨by decide, by decide⟩

theorem sample_complete : ∃ labels final, run (step (nodeProgram sample)) (start sample) labels = some final ∧
    ∀ node, final.step (nodeProgram sample) node = none := by
  obtain ⟨labels, final, results, ran, complete, -⟩ := complete_run sample_healthy
  exact ⟨labels, final, ran, fun node => stuck_halted (complete.halted node)⟩

theorem sample_champion : ∃ labels final,
    run (step (nodeProgram sample)) (start sample) labels = some final ∧ final.output (.battle .A) = [0] := by
  obtain ⟨labels, final, ran, stuck⟩ := sample_complete
  obtain ⟨result, found, printed⟩ := (tournament_refines_reference sample_healthy (by decide) ran).2.2 stuck |>.2
  have champion : (reference sample .A).map (fun result => result.winner.realPlayerId) = some 0 := by
    decide +kernel
  rw [found, Option.map_some, Option.some.injEq] at champion
  exact ⟨labels, final, ran, by rw [printed, champion]⟩

theorem never_stuck (healthy : Healthy table) {labels : List Node} {now : Processes}
    (ran : run (step (nodeProgram table)) (start table) labels = some now) :
    ((∃ node, now.halted (nodeProgram table) node = false) →
      ∃ node next, now.step (nodeProgram table) node = some next) ∧
    ((∀ node, now.step (nodeProgram table) node = none) →
      (∀ node, now.halted (nodeProgram table) node = true) ∧
        ∃ champion, now.output (.battle .A) = [champion]) := by
  obtain ⟨whole, final, results, complete, -, every⟩ := runs_complete healthy
  obtain ⟨rest, ran', -⟩ := every labels now ran
  constructor
  · rintro ⟨node, live⟩
    -- a state in which nobody can step is the end, where nobody is left
    by_contra nobody
    have stuck : ∀ node, now.step (nodeProgram table) node = none := by
      intro node
      cases can : now.step (nodeProgram table) node with
      | none => rfl
      | some next => exact absurd ⟨node, next, can⟩ nobody
    have gone := complete.halted node
    rw [← stuck_final ran' stuck, Halted, live] at gone
    cases gone
  · intro stuck
    obtain rfl := stuck_final ran' stuck
    obtain ⟨result, -, printed⟩ := complete.printed ran
    exact ⟨complete.halted, _, printed⟩

end SPHomework.Tournament
