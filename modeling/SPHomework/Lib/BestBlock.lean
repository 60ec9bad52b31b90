import Mathlib.Algebra.BigOperators.Group.List.Basic
import Mathlib.Algebra.Order.Monoid.Defs
import Mathlib.Order.Bounds.Basic

set_option autoImplicit false

/-!
# The best block of a sequence

The greatest sum of a contiguous block, with the empty one among the blocks,
and how it is kept up number by number from the best block that ends here.
-/

namespace SPHomework.Lib

variable {A : Type*} [AddCommMonoid A]

def blockSums (numbers : List A) : Set A := {sum | ∃ block, block <:+: numbers ∧ block.sum = sum}

-- The blocks that end here. Only before the first number there is none but the empty one.
def endingSums (numbers : List A) : Set A :=
  {sum | ∃ block, block <:+ numbers ∧ (block = [] → numbers = []) ∧ block.sum = sum}

theorem endingSums_subset (numbers : List A) : endingSums numbers ⊆ blockSums numbers := by
  rintro _ ⟨block, inside, -, rfl⟩
  exact ⟨block, inside.isInfix, rfl⟩

theorem blockSums_mono {few numbers : List A} (part : few <:+: numbers) : blockSums few ⊆ blockSums numbers := by
  rintro _ ⟨block, inside, rfl⟩
  exact ⟨block, inside.trans part, rfl⟩

theorem mem_endingSums_snoc (numbers : List A) (number sum : A) :
    sum ∈ endingSums (numbers ++ [number]) ↔ ∃ block, block <:+ numbers ∧ block.sum + number = sum := by
  have snoc : ∀ block : List A, (block ++ [number]).sum = block.sum + number := by
    intro block
    rw [List.sum_append, List.sum_singleton]
  constructor
  · rintro ⟨block, inside, nonempty, rfl⟩
    rcases List.suffix_concat_iff.mp inside with empty | ⟨shorter, rfl, before⟩
    · exact absurd (nonempty empty) (by simp)
    · exact ⟨shorter, before, (snoc shorter).symm⟩
  · rintro ⟨block, inside, rfl⟩
    exact ⟨block ++ [number], List.suffix_concat_iff.mpr (.inr ⟨block, rfl, inside⟩),
      fun empty => absurd empty (by simp), snoc block⟩

theorem blockSums_snoc (numbers : List A) (number : A) :
    blockSums (numbers ++ [number]) = blockSums numbers ∪ endingSums (numbers ++ [number]) := by
  ext sum
  constructor
  · rintro ⟨block, inside, rfl⟩
    rcases List.infix_concat_iff.mp inside with ending | earlier
    · by_cases empty : block = []
      · subst empty
        exact .inl ⟨[], List.nil_infix, rfl⟩
      · exact .inr ⟨block, ending, fun none => absurd none empty, rfl⟩
    · exact .inl ⟨block, earlier, rfl⟩
  · rintro (earlier | ending)
    · exact blockSums_mono (List.infix_concat_iff.mpr (.inr List.infix_rfl)) earlier
    · exact endingSums_subset _ ending

variable [LinearOrder A]

def IsBest (numbers : List A) (best : A) : Prop := IsGreatest (blockSums numbers) best

def IsBestEnding (numbers : List A) (best : A) : Prop := IsGreatest (endingSums numbers) best

theorem isBest_nil : IsBest ([] : List A) 0 := by
  refine ⟨⟨[], List.infix_rfl, List.sum_nil⟩, ?_⟩
  rintro _ ⟨block, inside, rfl⟩
  rw [List.infix_nil.mp inside, List.sum_nil]

theorem isBestEnding_nil : IsBestEnding ([] : List A) 0 := by
  refine ⟨⟨[], List.suffix_rfl, fun _ => rfl, List.sum_nil⟩, ?_⟩
  rintro _ ⟨block, inside, -, rfl⟩
  rw [List.suffix_nil.mp inside, List.sum_nil]

/-- The best block that ends at a number goes on from the best one before it, or starts there. -/
theorem IsBestEnding.snoc [IsOrderedAddMonoid A] {numbers : List A} {best : A} (ending : IsBestEnding numbers best)
    (number : A) : IsBestEnding (numbers ++ [number]) (max (best + number) number) := by
  obtain ⟨⟨longest, inside, -, rfl⟩, bound⟩ := ending
  constructor
  · rw [mem_endingSums_snoc]
    rcases max_choice (longest.sum + number) number with same | same
    · exact ⟨longest, inside, same.symm⟩
    · exact ⟨[], List.nil_suffix, by rw [same, List.sum_nil, zero_add]⟩
  · intro sum member
    obtain ⟨block, inside, rfl⟩ := (mem_endingSums_snoc ..).mp member
    by_cases empty : block = []
    · rw [empty, List.sum_nil, zero_add]
      exact le_max_right ..
    · have less : block.sum ≤ longest.sum := bound ⟨block, inside, fun none => absurd none empty, rfl⟩
      exact (add_le_add_left less number).trans (le_max_left ..)

theorem IsBest.snoc {numbers : List A} {number best ending : A} (sofar : IsBest numbers best)
    (here : IsBestEnding (numbers ++ [number]) ending) : IsBest (numbers ++ [number]) (max best ending) := by
  rw [IsBest, blockSums_snoc]
  exact sofar.union here

end SPHomework.Lib
