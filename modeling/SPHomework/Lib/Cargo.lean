import SPHomework.Lib.RequestReply

set_option autoImplicit false

/-!
# What messages are made of

Each channel promises something of its messages, each process something of where
it is. If every process keeps its promises as long as what it reads is as
promised, then all promises are kept in every run.
-/

namespace SPHomework.Lib

variable {P C M O L : Type}

/-- `At` is what a process promises of its places, `On` what a channel promises of its messages. -/
structure Contract (program : P → L → Action P C M O L) (At : P → L → Prop) (On : C → M → Prop) : Prop where
  sends : ∀ {p place channel message next}, At p place → program p place = .send channel message next →
    On channel message
  keeps : ∀ {p place next}, At p place → (program p place).Leads next →
    (∀ channel next, program p place ≠ .receive channel next) → At p next
  receives : ∀ {p place channel next message}, At p place → program p place = .receive channel next →
    On channel message → At p (next message)

/-- A program that passes a property on: `held` lists the messages that a process has at a place. -/
structure Passes (program : P → L → Action P C M O L) (held : L → List M) (Good : M → Prop) : Prop where
  sends : ∀ {p place channel message next}, program p place = .send channel message next → message ∈ held place
  keeps : ∀ {p place next}, (program p place).Leads next →
    (∀ channel next, program p place ≠ .receive channel next) → ∀ message ∈ held next, message ∈ held place
  receives : ∀ {p place channel next message}, program p place = .receive channel next → Good message →
    (∀ other ∈ held place, Good other) → ∀ made ∈ held (next message), Good made

-- The same promise everywhere: whatever is held or sent is good.
theorem Passes.contract {program : P → L → Action P C M O L} {held : L → List M} {Good : M → Prop}
    (passes : Passes program held Good) :
    Contract program (fun _ place => ∀ message ∈ held place, Good message) (fun _ => Good) where
  sends good doing := good _ (passes.sends doing)
  keeps good leads quiet message member := good message (passes.keeps leads quiet message member)
  receives good doing arrived := passes.receives doing arrived good

namespace Network

structure Kept (At : P → L → Prop) (On : C → M → Prop) (now : Network P C M O L) : Prop where
  places : ∀ p, At p (now.place p)
  channels : ∀ channel, ∀ entry ∈ now.sent channel, On channel entry.2

/-- All messages are good, wherever they are. -/
abbrev Clean (held : L → List M) (Good : M → Prop) (now : Network P C M O L) : Prop :=
  Kept (fun _ place => ∀ message ∈ held place, Good message) (fun _ => Good) now

variable [DecidableEq P] [DecidableEq C] {program : P → L → Action P C M O L} {At : P → L → Prop}
  {On : C → M → Prop} {now after : Network P C M O L} {p : P}

theorem Kept.step (contract : Contract program At On) (kept : Kept At On now)
    (stepped : now.step program p = some after) : Kept At On after := by
  constructor
  · intro q
    by_cases own : q = p
    · subst own
      by_cases reads : ∃ channel next, program q (now.place q) = .receive channel next
      · obtain ⟨channel, next, doing⟩ := reads
        cases step_touch channel stepped with
        | sends message doing' => simp [doing] at doing'
        | spares spares => exact absurd doing (spares.2 next)
        | receives next' entry doing' found place =>
          rw [place]
          exact contract.receives (kept.places q) doing' (kept.channels channel entry (List.mem_of_getElem? found))
      · exact contract.keeps (kept.places q) (step_leads stepped) fun channel next doing => reads ⟨channel, next, doing⟩
    · rw [step_place stepped q own]
      exact kept.places q
  · intro channel entry member
    cases step_touch channel stepped with
    | sends message doing sent =>
      rw [sent] at member
      rcases List.mem_append.mp member with before | last
      · exact kept.channels channel entry before
      · rw [List.mem_singleton.mp last]
        exact contract.sends (kept.places p) doing
    | receives _ _ _ _ _ sent => exact kept.channels channel entry (sent ▸ member)
    | spares _ sent => exact kept.channels channel entry (sent ▸ member)

theorem kept_run (contract : Contract program At On) (kept : Kept At On now) {labels : List P}
    (ran : run (step program) now labels = some after) : Kept At On after :=
  run_invariant _ (Kept At On) (fun _ _ _ before stepped => before.step contract stepped) now after labels kept ran

end Network

end SPHomework.Lib
