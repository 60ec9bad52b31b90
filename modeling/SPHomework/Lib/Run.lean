import Mathlib.Data.List.Basic
import Mathlib.Logic.Relation

set_option autoImplicit false

/-!
# Runs of labelled partial step functions

A system is a partial function `step : S → L → Option S`. The label carries
every choice the environment makes, so a run is a list of labels.
-/

namespace SPHomework.Lib

universe u v

variable {S : Type u} {L : Type v}

def run (step : S → L → Option S) : S → List L → Option S
  | state, [] => some state
  | state, label :: rest => (step state label).bind fun next => run step next rest

@[simp] theorem run_nil (step : S → L → Option S) (state : S) : run step state [] = some state := rfl

theorem run_cons (step : S → L → Option S) (state final : S) (label : L) (rest : List L) :
    run step state (label :: rest) = some final ↔
      ∃ next, step state label = some next ∧ run step next rest = some final := by
  simp [run, Option.bind_eq_some_iff]

theorem run_append (step : S → L → Option S) (state final : S) (first second : List L) :
    run step state (first ++ second) = some final ↔
      ∃ middle, run step state first = some middle ∧ run step middle second = some final := by
  induction first generalizing state with
  | nil => simp
  | cons label rest ih =>
    simp only [List.cons_append, run_cons, ih]
    constructor
    · rintro ⟨next, taken, middle, before, after⟩
      exact ⟨middle, ⟨next, taken, before⟩, after⟩
    · rintro ⟨middle, ⟨next, taken, before⟩, after⟩
      exact ⟨next, taken, middle, before, after⟩

theorem run_snoc {step : S → L → Option S} {state middle final : S} {labels : List L} {label : L}
    (ran : run step state labels = some middle) (taken : step middle label = some final) :
    run step state (labels ++ [label]) = some final :=
  (run_append step state final labels [label]).mpr ⟨middle, ran, by simp [run, taken]⟩

theorem run_invariant (step : S → L → Option S) (Inv : S → Prop)
    (preserved : ∀ state label next, Inv state → step state label = some next → Inv next)
    (state final : S) (labels : List L) (initial : Inv state)
    (ran : run step state labels = some final) : Inv final := by
  induction labels generalizing state with
  | nil =>
    rw [run_nil, Option.some.injEq] at ran
    exact ran ▸ initial
  | cons label rest ih =>
    obtain ⟨next, taken, continued⟩ := (run_cons step state final label rest).mp ran
    exact ih next (preserved state label next initial taken) continued

-- Two systems that take the same steps wherever the first can get have the same runs.
theorem run_agree (step step' : S → L → Option S) (Inv : S → Prop)
    (preserved : ∀ state label next, Inv state → step state label = some next → Inv next)
    (agree : ∀ state label, Inv state → step' state label = step state label) (state : S) (labels : List L)
    (initial : Inv state) : run step' state labels = run step state labels := by
  induction labels generalizing state with
  | nil => rfl
  | cons label rest ih =>
    rw [run, run, agree state label initial]
    cases taken : step state label with
    | none => rfl
    | some next => exact ih next (preserved state label next initial taken)

theorem run_stuck {step : S → L → Option S} {state final : S} {labels : List L}
    (ran : run step state labels = some final) (stuck : ∀ label, step state label = none) : state = final := by
  cases labels with
  | nil => exact Option.some.inj ran
  | cons label rest =>
    obtain ⟨next, taken, -⟩ := (run_cons step state final label rest).mp ran
    rw [stuck label] at taken
    cases taken

/-- Where each step that counts leaves less to do and no step leaves more, a run has no more of these steps
than there is to do. -/
theorem run_measure (step : S → L → Option S) (Inv : S → Prop) (counts : L → Bool) (remaining : S → Nat)
    (preserved : ∀ state label next, Inv state → step state label = some next → Inv next)
    (less : ∀ state label next, Inv state → step state label = some next →
      remaining next + (counts label).toNat ≤ remaining state)
    (state final : S) (labels : List L) (initial : Inv state) (ran : run step state labels = some final) :
    labels.countP counts + remaining final ≤ remaining state := by
  induction labels generalizing state with
  | nil =>
    obtain rfl : state = final := Option.some.inj ran
    simp
  | cons label rest ih =>
    obtain ⟨next, taken, continued⟩ := (run_cons step state final label rest).mp ran
    have later := ih next (preserved state label next initial taken) continued
    have here := less state label next initial taken
    rw [List.countP_cons]
    cases counted : counts label <;> simp only [counted, Bool.toNat_false, Bool.toNat_true] at here <;>
      simp <;> omega

-- And it can go on with them until none is left.
theorem run_to_end (step : S → L → Option S) (Inv : S → Prop) (counts : L → Bool) (remaining : S → Nat)
    (preserved : ∀ state label next, Inv state → step state label = some next → Inv next)
    (less : ∀ state label next, Inv state → step state label = some next →
      remaining next + (counts label).toNat ≤ remaining state) (state : S) (initial : Inv state) :
    ∃ labels final, run step state labels = some final ∧ (∀ label ∈ labels, counts label = true) ∧
      ∀ label, counts label = true → step final label = none := by
  induction measure : remaining state using Nat.strongRecOn generalizing state with
  | _ bound ih =>
    by_cases stuck : ∀ label, counts label = true → step state label = none
    · exact ⟨[], state, rfl, by simp, stuck⟩
    · obtain ⟨label, moves⟩ := not_forall.mp stuck
      obtain ⟨counted, moves⟩ := Classical.not_imp.mp moves
      obtain ⟨next, taken⟩ := Option.ne_none_iff_exists'.mp moves
      have fewer := less state label next initial taken
      rw [counted, Bool.toNat_true] at fewer
      obtain ⟨labels, final, ran, all, ends⟩ := ih (remaining next) (measure ▸ fewer) next
        (preserved state label next initial taken) rfl
      exact ⟨label :: labels, final, (run_cons ..).mpr ⟨next, taken, ran⟩,
        List.forall_mem_cons.mpr ⟨counted, all⟩, ends⟩

-- The states that a run goes through, without the first.
def trail (step : S → L → Option S) : S → List L → Option (List S)
  | _, [] => some []
  | state, label :: rest => (step state label).bind fun next => (trail step next rest).map (next :: ·)

theorem trail_cons (step : S → L → Option S) (state : S) (label : L) (rest : List L) (states : List S) :
    trail step state (label :: rest) = some states ↔
      ∃ next later, step state label = some next ∧ trail step next rest = some later ∧
        states = next :: later := by
  simp only [trail, Option.bind_eq_some_iff, Option.map_eq_some_iff]
  constructor
  · rintro ⟨next, taken, later, continued, rfl⟩
    exact ⟨next, later, taken, continued, rfl⟩
  · rintro ⟨next, later, taken, continued, rfl⟩
    exact ⟨next, taken, later, continued, rfl⟩

def Always (step : S → L → Option S) (Ok : S → L → Prop) : S → List L → Prop
  | _, [] => True
  | state, label :: rest => Ok state label ∧ ∀ next, step state label = some next → Always step Ok next rest

theorem always_cons {step : S → L → Option S} {Ok : S → L → Prop} {state next : S} {label : L}
    {rest : List L} (taken : step state label = some next) :
    Always step Ok state (label :: rest) ↔ Ok state label ∧ Always step Ok next rest := by
  simp [Always, taken]

theorem always_reached {step : S → L → Option S} {Ok : S → L → Prop} {state middle : S} {earlier rest : List L}
    {label : L} (ran : run step state earlier = some middle)
    (always : Always step Ok state (earlier ++ label :: rest)) : Ok middle label := by
  induction earlier generalizing state with
  | nil =>
    rw [run_nil, Option.some.injEq] at ran
    subst ran
    exact always.1
  | cons first earlier ih =>
    obtain ⟨next, taken, continued⟩ := (run_cons step state middle first earlier).mp ran
    exact ih continued (always.2 next taken)

theorem always_invariant {step : S → L → Option S} {Ok : S → L → Prop} {Inv : S → Prop}
    (preserved : ∀ state label next, Inv state → Ok state label → step state label = some next → Inv next)
    {state final : S} {labels : List L} (initial : Inv state) (always : Always step Ok state labels)
    (ran : run step state labels = some final) : Inv final := by
  induction labels generalizing state with
  | nil => exact Option.some.inj ran ▸ initial
  | cons label rest ih =>
    obtain ⟨next, taken, continued⟩ := (run_cons step state final label rest).mp ran
    obtain ⟨ok, later⟩ := (always_cons taken).mp always
    exact ih (preserved state label next initial ok taken) later continued

theorem always_congr (step : S → L → Option S) (Inv : S → Prop)
    (preserved : ∀ state label next, Inv state → step state label = some next → Inv next)
    {Ok Fine : S → L → Prop} (same : ∀ state label, Inv state → (Ok state label ↔ Fine state label))
    (state : S) (labels : List L) (initial : Inv state) :
    Always step Ok state labels ↔ Always step Fine state labels := by
  induction labels generalizing state with
  | nil => exact Iff.rfl
  | cons label rest ih =>
    refine and_congr (same state label initial) (forall_congr' fun next => forall_congr' fun taken => ?_)
    exact ih next (preserved state label next initial taken)

/-- A counter that counts the steps that fail a condition stays put exactly in the runs without
such a step. -/
theorem run_counter (step : S → L → Option S) (Ok : S → L → Prop) (count : S → Nat)
    (kept : ∀ state label next, step state label = some next → Ok state label →
      count next = count state)
    (counted : ∀ state label next, step state label = some next → ¬ Ok state label →
      count state < count next)
    (state final : S) (labels : List L) (ran : run step state labels = some final) :
    count state ≤ count final ∧ (count final = count state ↔ Always step Ok state labels) := by
  induction labels generalizing state with
  | nil =>
    rw [run_nil, Option.some.injEq] at ran
    simp [Always, ran]
  | cons label rest ih =>
    obtain ⟨next, taken, continued⟩ := (run_cons step state final label rest).mp ran
    obtain ⟨grows, same⟩ := ih next continued
    rw [always_cons taken]
    by_cases ok : Ok state label
    · rw [← kept state label next taken ok, same]
      exact ⟨grows, by simp [ok]⟩
    · have more := counted state label next taken ok
      exact ⟨by omega, fun equal => by omega, fun always => absurd always.1 ok⟩

def occurrences (step : S → L → Option S) (event : S → L → Bool) : S → List L → Nat
  | _, [] => 0
  | state, label :: rest =>
    match step state label with
    | none => 0
    | some next => (event state label).toNat + occurrences step event next rest

theorem occurrences_agree (step step' : S → L → Option S) (event : S → L → Bool) (Inv : S → Prop)
    (preserved : ∀ state label next, Inv state → step state label = some next → Inv next)
    (agree : ∀ state label, Inv state → step' state label = step state label) (state : S) (labels : List L)
    (initial : Inv state) : occurrences step' event state labels = occurrences step event state labels := by
  induction labels generalizing state with
  | nil => rfl
  | cons label rest ih =>
    rw [occurrences, occurrences, agree state label initial]
    cases taken : step state label with
    | none => rfl
    | some next => exact congrArg _ (ih next (preserved state label next initial taken))

theorem run_occurrences (step : S → L → Option S) (event : S → L → Bool) (count : S → Nat)
    (counted : ∀ state label next, step state label = some next →
      count next = count state + (event state label).toNat)
    (state final : S) (labels : List L) (ran : run step state labels = some final) :
    count final = count state + occurrences step event state labels := by
  induction labels generalizing state with
  | nil =>
    rw [run_nil, Option.some.injEq] at ran
    simp [occurrences, ran]
  | cons label rest ih =>
    obtain ⟨next, taken, continued⟩ := (run_cons step state final label rest).mp ran
    have first := counted state label next taken
    have later := ih next continued
    simp only [occurrences, taken]
    omega

/-- A property of a state and of how often the event has occurred. -/
theorem run_counted (step : S → L → Option S) (event : S → L → Bool) (Inv : Nat → S → Prop)
    (preserved : ∀ count state label next, Inv count state → step state label = some next →
      Inv (count + (event state label).toNat) next)
    (count : Nat) (state final : S) (labels : List L) (initial : Inv count state)
    (ran : run step state labels = some final) : Inv (count + occurrences step event state labels) final := by
  induction labels generalizing count state with
  | nil =>
    obtain rfl := Option.some.inj ran
    exact initial
  | cons label rest ih =>
    obtain ⟨next, taken, continued⟩ := (run_cons step state final label rest).mp ran
    have later := ih _ next (preserved count state label next initial taken) continued
    rw [Nat.add_assoc] at later
    simpa only [occurrences, taken] using later

end SPHomework.Lib
