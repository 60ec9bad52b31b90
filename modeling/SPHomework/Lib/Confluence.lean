import Mathlib.Data.List.Perm.Basic
import SPHomework.Lib.Run

set_option autoImplicit false

/-!
# Runs that all end alike

If steps of different labels commute wherever a final state can still be
reached, then one complete run decides all others: each of them is a
rearrangement of a part of it.
-/

namespace SPHomework.Lib

variable {S L : Type} [DecidableEq L] (step : S → L → Option S)

def Commutes (state : S) : Prop :=
  ∀ p q, p ≠ q → ∀ one other, step state p = some one → step state q = some other →
    ∃ both, step one q = some both ∧ step other p = some both

variable {step} {final : S}

-- A step that can be taken now is a step of the complete run, and can be taken out of it.
theorem run_erase (stuck : ∀ p, step final p = none)
    (commutes : ∀ state labels, run step state labels = some final → Commutes step state)
    {state next : S} {labels : List L} (ran : run step state labels = some final) {p : L}
    (taken : step state p = some next) :
    p ∈ labels ∧ run step next (labels.erase p) = some final := by
  induction labels generalizing state next with
  | nil =>
    obtain rfl : state = final := Option.some.inj ran
    rw [stuck p] at taken
    cases taken
  | cons q rest ih =>
    have diamond := commutes state (q :: rest) ran
    obtain ⟨after, taken', continued⟩ := (run_cons step state final q rest).mp ran
    -- the complete run starts with this step, or with one that commutes with it
    by_cases same : q = p
    · subst same
      rw [taken] at taken'
      cases taken'
      exact ⟨List.mem_cons_self, by rw [List.erase_cons_head]; exact continued⟩
    · obtain ⟨both, here, there⟩ := diamond p q (Ne.symm same) next after taken taken'
      obtain ⟨member, done⟩ := ih continued there
      refine ⟨List.mem_cons_of_mem q member, ?_⟩
      rw [List.erase_cons_tail (by simpa using same)]
      exact (run_cons step next final q _).mpr ⟨both, here, done⟩

/-- Every run can be completed, and is then a permutation of the complete run. -/
theorem run_complete (stuck : ∀ p, step final p = none)
    (commutes : ∀ state labels, run step state labels = some final → Commutes step state)
    {state reached : S} {labels taken : List L} (ran : run step state labels = some final)
    (went : run step state taken = some reached) :
    ∃ rest, run step reached rest = some final ∧ (taken ++ rest).Perm labels := by
  induction taken generalizing state labels with
  | nil =>
    obtain rfl : state = reached := Option.some.inj went
    exact ⟨labels, ran, .refl _⟩
  | cons p taken ih =>
    obtain ⟨next, first, continued⟩ := (run_cons step state reached p taken).mp went
    obtain ⟨member, remaining⟩ := run_erase stuck commutes ran first
    obtain ⟨rest, done, perm⟩ := ih remaining continued
    exact ⟨rest, done, (perm.cons p).trans (List.perm_cons_erase member).symm⟩

end SPHomework.Lib
