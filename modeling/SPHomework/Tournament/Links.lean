import SPHomework.Lib.RequestReply
import SPHomework.Tournament.Champion

set_option autoImplicit false

/-!
# The links

The two pipes between a battle and a child of it. A battle serves them in two
loops, before and after its end, and the processes below stop in three places.
-/

namespace SPHomework.Tournament

open Lib Network

variable {table : Table}

-- The place of a child after its message, until the answer has come.
def Local.waiting : Local → Bool
  | .readDown => true
  | .readParent _ => true
  | _ => false

/-- A battle has a message of the child on that side, and has not answered. -/
def Local.owes (side : Side) : Local → Bool
  | .readRight _ => side = .left
  | .writeLeft _ _ _ => true
  | .writeRight _ _ _ => side = .right
  | .writeParent result _ => result.ending.winnerPipe = side
  | .readParent result => result.ending.winnerPipe = side
  | .writeWinner result _ => result.ending.winnerPipe = side
  | _ => false

-- The messages on which a child stops.
def Status.Stop (status : Status) : Prop :=
  status.battleEndedFlag = 1 ∧ (status.hp ≤ 0 ∨ status.currentBattleId = 'A')

/-- Where a child is from then on. -/
def Local.Over : Local → Prop
  | .writeWinner _ winnerStatus => winnerStatus.Stop
  | .waitLast _ => True
  | .returned _ => True
  | .writeFifo _ _ => True
  | .exited => True
  | _ => False

theorem child_injective {b b' : BattleId} {side side' : Side} (same : child b side = child b' side') :
    b = b' ∧ side = side' := by
  have higher := above_child b side
  rw [same, above_child, Option.some.injEq] at higher
  subst higher
  refine ⟨rfl, ?_⟩
  cases side <;> cases side' <;> first | rfl | exact absurd same (sides_ne _ _)

theorem playerAnswer_ready (table : Table) (i : Fin 8) (st : Status) :
    (playerAnswer table i st).waiting = false := by
  unfold playerAnswer
  split_ifs <;> rfl

theorem agentAnswer_ready (table : Table) (st : Status) : (agentAnswer table st).waiting = false := by
  unfold agentAnswer
  split_ifs <;> rfl

theorem sends_up {node p : Node} {place next : Local} {message : Status}
    (doing : nodeProgram table p place = .send (.up node) message next) :
    p = node ∧ place.waiting = false ∧ next.waiting = true := by
  cases p with
  | battle b =>
    cases place <;>
      simp only [nodeProgram, battleProgram, reduceCtorEq, Action.send.injEq, false_and] at doing
    obtain ⟨same, -, rfl⟩ := doing
    exact ⟨Channel.up.inj same, rfl, rfl⟩
  | player i =>
    cases place with
    | writeFifo target st => cases target <;> simp [nodeProgram, playerProgram] at doing
    | writeUp st =>
      simp only [nodeProgram, playerProgram, pipeProgram, Action.send.injEq] at doing
      obtain ⟨same, -, rfl⟩ := doing
      exact ⟨Channel.up.inj same, rfl, rfl⟩
    | _ => simp [nodeProgram, playerProgram, pipeProgram] at doing
  | agent a =>
    cases place with
    | writeUp st =>
      simp only [nodeProgram, agentProgram, pipeProgram, Action.send.injEq] at doing
      obtain ⟨same, -, rfl⟩ := doing
      exact ⟨Channel.up.inj same, rfl, rfl⟩
    | _ => simp [nodeProgram, agentProgram, pipeProgram] at doing

theorem receives_down {node p : Node} {place : Local} {next : Status → Local}
    (doing : nodeProgram table p place = .receive (.down node) next) :
    p = node ∧ place.waiting = true ∧ ∀ message, (next message).waiting = false := by
  cases p with
  | battle b =>
    cases place <;>
      simp only [nodeProgram, battleProgram, reduceCtorEq, Action.receive.injEq, false_and] at doing
    obtain ⟨same, rfl⟩ := doing
    exact ⟨Channel.down.inj same, rfl, fun _ => rfl⟩
  | player i =>
    cases place with
    | writeFifo target st => cases target <;> simp [nodeProgram, playerProgram] at doing
    | readDown =>
      simp only [nodeProgram, playerProgram, pipeProgram, Action.receive.injEq] at doing
      obtain ⟨same, rfl⟩ := doing
      exact ⟨Channel.down.inj same, rfl, playerAnswer_ready table i⟩
    | _ => simp [nodeProgram, playerProgram, pipeProgram] at doing
  | agent a =>
    cases place with
    | readDown =>
      simp only [nodeProgram, agentProgram, pipeProgram, Action.receive.injEq] at doing
      obtain ⟨same, rfl⟩ := doing
      exact ⟨Channel.down.inj same, rfl, agentAnswer_ready table⟩
    | _ => simp [nodeProgram, agentProgram, pipeProgram] at doing

theorem receives_up {b : BattleId} {side : Side} {p : Node} {place : Local} {next : Status → Local}
    (doing : nodeProgram table p place = .receive (.up (child b side)) next) :
    p = .battle b ∧ place.owes side = false ∧ ∀ message, (next message).owes side = true := by
  have reads := reads_reader table doing
  simp only [reader, above_child, Option.map_some, Option.some.injEq] at reads
  subst reads
  cases place <;>
    simp only [nodeProgram, battleProgram, reduceCtorEq, Action.receive.injEq, Channel.up.injEq, false_and] at doing
  all_goals
    obtain ⟨same, rfl⟩ := doing
    obtain ⟨-, rfl⟩ := child_injective same
    exact ⟨rfl, by simp [Local.owes], by simp [Local.owes]⟩

theorem sends_down {b : BattleId} {side : Side} {p : Node} {place next : Local} {message : Status}
    (doing : nodeProgram table p place = .send (.down (child b side)) message next) :
    p = .battle b ∧ place.owes side = true ∧ next.owes side = false := by
  rcases sends_writer table doing with writes | ⟨fifo, -⟩
  · simp only [writer, above_child, Option.map_some, Option.some.injEq] at writes
    subst writes
    cases place <;>
      simp only [nodeProgram, battleProgram, reduceCtorEq, Action.send.injEq, Channel.down.injEq, false_and] at doing
    all_goals
      obtain ⟨same, -, rfl⟩ := doing
      obtain ⟨-, rfl⟩ := child_injective same
      refine ⟨rfl, by simp [Local.owes], ?_⟩
    · simp [Local.owes]
    · rename_i ending
      cases ending <;> rfl
    · split_ifs <;> rfl
  · cases fifo

theorem waiting_kept {p : Node} {place next : Local} (leads : (nodeProgram table p place).Leads next)
    (spares : (nodeProgram table p place).Spares (.up p))
    (spares' : (nodeProgram table p place).Spares (.down p)) : next.waiting = place.waiting := by
  cases p with
  | battle b =>
    cases place with
    | writeRight l r ending =>
      rw [show next = _ from leads]
      cases ending <;> rfl
    | waitLoser result =>
      rw [show next = _ from leads]
      split_ifs <;> rfl
    | writeParent result st => exact absurd rfl (spares.1 st (.readParent result))
    | readParent result => exact absurd rfl (spares'.2 (.writeWinner result))
    | writeWinner result st =>
      rw [show next = _ from leads]
      split_ifs <;> rfl
    | readLeft | readRight _ | readWinner _ =>
      obtain ⟨message, rfl⟩ := leads
      rfl
    | writeLeft _ _ _ | printWinner _ | waitLast _ =>
      rw [show next = _ from leads]
      rfl
    | _ => cases leads
  | player i =>
    cases place with
    | writeFifo target st =>
      cases target with
      | none => cases leads
      | some k =>
        rw [show next = _ from leads]
        rfl
    | writeUp st => exact absurd rfl (spares.1 st .readDown)
    | readDown => exact absurd rfl (spares'.2 (playerAnswer table i))
    | _ => cases leads
  | agent a =>
    cases place with
    | readFifo =>
      obtain ⟨message, rfl⟩ := leads
      rfl
    | writeUp st => exact absurd rfl (spares.1 st .readDown)
    | readDown => exact absurd rfl (spares'.2 (agentAnswer table))
    | _ => cases leads

theorem owes_kept {b : BattleId} {side : Side} {place next : Local}
    (leads : (nodeProgram table (.battle b) place).Leads next)
    (spares : (nodeProgram table (.battle b) place).Spares (.up (child b side)))
    (spares' : (nodeProgram table (.battle b) place).Spares (.down (child b side))) :
    next.owes side = place.owes side := by
  cases place with
  | readLeft =>
    obtain ⟨message, rfl⟩ := leads
    cases side with
    | left => exact absurd rfl (spares.2 .readRight)
    | right => rfl
  | readRight l =>
    obtain ⟨message, rfl⟩ := leads
    cases side with
    | left => rfl
    | right => exact absurd rfl (spares.2 _)
  | writeLeft l r ending =>
    rw [show next = _ from leads]
    cases side with
    | left => exact absurd rfl (spares'.1 _ _)
    | right => rfl
  | writeRight l r ending =>
    rw [show next = _ from leads]
    cases side with
    | left => cases ending <;> rfl
    | right => exact absurd rfl (spares'.1 _ _)
  | waitLoser result =>
    rw [show next = _ from leads]
    split_ifs <;> rfl
  | readWinner result =>
    obtain ⟨message, rfl⟩ := leads
    by_cases winner : result.ending.winnerPipe = side
    · subst winner
      exact absurd rfl (spares.2 _)
    · simp [Local.owes, winner]
  | writeWinner result st =>
    rw [show next = _ from leads]
    by_cases winner : result.ending.winnerPipe = side
    · subst winner
      exact absurd rfl (spares'.1 _ _)
    · split_ifs <;> simp [Local.owes, winner]
  | readParent result =>
    obtain ⟨message, rfl⟩ := leads
    rfl
  | printWinner _ | writeParent _ _ | waitLast _ =>
    rw [show next = _ from leads]
    rfl
  | _ => cases leads

theorem child_link (table : Table) (b : BattleId) (side : Side) :
    Link (nodeProgram table) (.up (child b side)) (.down (child b side)) (child b side) (.battle b)
      Local.waiting (Local.owes side) where
  apart := by simp
  distinct := child_ne b side
  asks := sends_up
  hears := receives_down
  takes := receives_up
  answers := sends_down
  childKeeps := waiting_kept
  parentKeeps := owes_kept

theorem playerAnswer_over (table : Table) (i : Fin 8) {st : Status} (stop : st.Stop) :
    (playerAnswer table i st).Over := by
  obtain ⟨flag, down | last⟩ := stop
  · unfold playerAnswer
    rw [if_pos flag, if_neg (not_lt.mpr down)]
    split_ifs <;> trivial
  · unfold playerAnswer
    rw [if_pos flag]
    split_ifs <;> trivial

theorem agentAnswer_over (table : Table) {st : Status} (stop : st.Stop) : (agentAnswer table st).Over := by
  unfold agentAnswer
  rw [if_pos stop.1, if_pos stop.2]
  trivial

theorem over_step {p : Node} {place next : Local} (ends : place.Over)
    (leads : (nodeProgram table p place).Leads next) : next.Over := by
  cases p with
  | battle b =>
    cases place with
    | writeWinner result st =>
      obtain ⟨flag, down | last⟩ := ends
      · rw [show next = _ from leads, if_pos ⟨flag, down⟩]
        trivial
      · rw [show next = _ from leads]
        split_ifs with gone here
        · trivial
        · trivial
        · exact absurd ⟨flag, last⟩ here
    | waitLast result =>
      rw [show next = _ from leads]
      trivial
    | _ => first | (cases leads; done) | cases ends
  | player i =>
    cases place with
    | writeFifo target st =>
      cases target with
      | none => cases leads
      | some k =>
        rw [show next = _ from leads]
        trivial
    | _ => first | (cases leads; done) | cases ends
  | agent a =>
    cases place with
    | _ => first | (cases leads; done) | cases ends

theorem over_enters {p : Node} {place : Local} {next : Status → Local} {message : Status}
    (doing : nodeProgram table p place = .receive (.down p) next) (stop : message.Stop) :
    (next message).Over := by
  cases p with
  | battle b =>
    cases place <;>
      simp only [nodeProgram, battleProgram, reduceCtorEq, Action.receive.injEq, false_and, true_and] at doing
    subst doing
    exact stop
  | player i =>
    cases place with
    | writeFifo target st => cases target <;> simp [nodeProgram, playerProgram] at doing
    | readDown =>
      simp only [nodeProgram, playerProgram, pipeProgram, Action.receive.injEq, true_and] at doing
      subst doing
      exact playerAnswer_over table i stop
    | _ => simp [nodeProgram, playerProgram, pipeProgram] at doing
  | agent a =>
    cases place with
    | readDown =>
      simp only [nodeProgram, agentProgram, pipeProgram, Action.receive.injEq, true_and] at doing
      subst doing
      exact agentAnswer_over table stop
    | _ => simp [nodeProgram, agentProgram, pipeProgram] at doing

theorem over_idle {place : Local} (ends : place.Over) : place.waiting = false := by
  cases place with
  | readDown => cases ends
  | readParent result => cases ends
  | _ => rfl

theorem over_silent {p : Node} {place next : Local} {message : Status} (ends : place.Over) :
    nodeProgram table p place ≠ .send (.up p) message next := by
  intro doing
  -- it would wait after that message
  have sends := (sends_up doing).2.2
  rw [over_idle (over_step ends (by rw [doing]; rfl))] at sends
  cases sends

theorem child_stops (table : Table) (node : Node) :
    Stops (nodeProgram table) (.up node) (.down node) node Local.waiting Status.Stop Local.Over where
  enters := over_enters
  stays := over_step
  idle := over_idle
  silent := over_silent

theorem start_paced (table : Table) (b : BattleId) (side : Side) :
    Paced (.up (child b side)) (.down (child b side)) (child b side) (.battle b) Local.waiting
      (Local.owes side) (start table) where
  asked := by
    cases child b side <;> rfl
  answered := rfl
  sound := fun _ => Nat.le_refl _

/-- Every link in every run: one message at most on the way, child and parent by turns, and nothing
after the message on which the child stops. -/
theorem links_alternate (table : Table) (labels : List Node) (now : Processes)
    (ran : run (step (nodeProgram table)) (start table) labels = some now) (b : BattleId) (side : Side) :
    (now.inFlight (.up (child b side))).length + (now.inFlight (.down (child b side))).length ≤ 1 ∧
    Alternates (.up (child b side)) (.down (child b side))
      (((start table).traffic (nodeProgram table) (.up (child b side)) (.down (child b side)) labels).map
        Prod.fst) ∧
    ∀ before status rest, status.Stop →
      (start table).traffic (nodeProgram table) (.up (child b side)) (.down (child b side)) labels =
        before ++ (.down (child b side), status) :: rest → rest = [] := by
  have link := child_link table b side
  have paced := start_paced table b side
  refine ⟨(link.run paced ran).single, (link.alternates paced ran).1 rfl, ?_⟩
  intro before status rest stop split
  exact link.stop_last (child_stops table _) paced ran stop split

theorem links_alternate_sample : ∃ labels final,
    run (step (nodeProgram sample)) (start sample) labels = some final ∧
      (∀ node, final.step (nodeProgram sample) node = none) ∧
      Alternates (.up (child .G .left)) (.down (child .G .left))
        (((start sample).traffic (nodeProgram sample) (.up (child .G .left)) (.down (child .G .left)) labels).map
          Prod.fst) := by
  obtain ⟨labels, final, ran, stuck⟩ := sample_complete
  exact ⟨labels, final, ran, stuck, (links_alternate sample labels final ran .G .left).2.1⟩

end SPHomework.Tournament
