import SPHomework.Lib.ForkJoin

set_option autoImplicit false

/-!
# Jobs that touch some cells only

A plan is a fork-join program whose actions have names. When each job reads and
writes only cells of its own, and the two threads of a fork share none, the
order in which they run makes no difference.
-/

namespace SPHomework.Lib

namespace Par

variable {S I A : Type}

-- Cells outside stay as they are, and nothing depends on them.
structure Local (cell : S → I → A) (cells : Set I) (action : S → Option S) : Prop where
  writes : ∀ state next, action state = some next → Agree cell cellsᶜ state next
  reads : ∀ state other, Agree cell cells state other →
    Option.Rel (Agree cell cells) (action state) (action other)

variable {cell : S → I → A} {cells larger : Set I} {action after : S → Option S}

theorem Local.id (cells : Set I) : Local cell cells some :=
  ⟨fun state _ same => Option.some.inj same ▸ .refl _ state, fun _ _ agree => .some agree⟩

theorem Local.fails (cells : Set I) : Local cell cells fun _ => none :=
  ⟨fun _ _ same => absurd same (Option.some_ne_none _).symm, fun _ _ _ => .none⟩

-- Where two states agree on the cells, both fail or both go on and agree again.
theorem Local.cases (alone : Local cell cells action) {state other : S}
    (agree : Agree cell cells state other) :
    (action state = none ∧ action other = none) ∨
      ∃ next next', action state = some next ∧ action other = some next' ∧
        Agree cell cells next next' := by
  have related := alone.reads state other agree
  cases one : action state with
  | none =>
    cases two : action other with
    | none => exact .inl ⟨rfl, rfl⟩
    | some next' => rw [one, two] at related; cases related
  | some next =>
    cases two : action other with
    | none => rw [one, two] at related; cases related
    | some next' =>
      rw [one, two] at related
      cases related with
      | some agree => exact .inr ⟨next, next', rfl, rfl, agree⟩

theorem Local.mono (alone : Local cell cells action) (part : cells ⊆ larger) :
    Local cell larger action := by
  constructor
  · intro state next ran
    exact (alone.writes state next ran).mono (Set.compl_subset_compl.mpr part)
  · intro state other agree
    rcases alone.cases (agree.mono part) with ⟨one, two⟩ | ⟨next, next', one, two, inside⟩
    · rw [one, two]
      exact .none
    · rw [one, two]
      refine .some fun i member => ?_
      by_cases own : i ∈ cells
      · exact inside i own
      · rw [alone.writes other next' two i own, agree i member, alone.writes state next one i own]

theorem Local.seq (first : Local cell cells action) (second : Local cell cells after) :
    Local cell cells fun state => (action state).bind after := by
  constructor
  · intro state final ran
    obtain ⟨next, one, two⟩ := Option.bind_eq_some_iff.mp ran
    exact (first.writes state next one).trans (second.writes next final two)
  · intro state other agree
    rcases first.cases agree with ⟨one, two⟩ | ⟨next, next', one, two, inside⟩
    · rw [one, two]
      exact .none
    · rw [one, two]
      exact second.reads next next' inside

theorem Local.execute {trace : List (S → Option S)} (all : ∀ action ∈ trace, Local cell cells action) :
    Local cell cells (Par.execute trace) := by
  induction trace with
  | nil => exact .id cells
  | cons action rest ih =>
    have first := all action List.mem_cons_self
    exact first.seq (ih fun later member => all later (List.mem_cons_of_mem _ member))

theorem execute_append (xs ys : List (S → Option S)) (state : S) :
    Par.execute (xs ++ ys) state = (Par.execute xs state).bind (Par.execute ys) :=
  List.foldlM_append

theorem execute_cons (action : S → Option S) (rest : List (S → Option S)) (state : S) :
    Par.execute (action :: rest) state = (action state).bind (Par.execute rest) := rfl

section

variable {others : Set I} (extensional : ∀ state other : S, (∀ i, cell other i = cell state i) → other = state)

include extensional

/-- Two actions without a common cell commute, also when one of them fails. -/
theorem Local.commute (one : Local cell cells action) (other : Local cell others after)
    (apart : cells ⊆ othersᶜ) (state : S) :
    (action state).bind after = (after state).bind action := by
  have notOne : others ⊆ cellsᶜ := Set.subset_compl_comm.mp apart
  cases first : action state with
  | none =>
    cases second : after state with
    | none => rfl
    | some next =>
      -- what the other one did is nothing to the one that fails
      rcases one.cases ((other.writes state next second).mono apart) with ⟨-, fails⟩ | ⟨_, _, ran, -⟩
      · exact fails.symm
      · exact absurd (first.symm.trans ran) (Option.some_ne_none _).symm
  | some next =>
    have here := (one.writes state next first).mono notOne
    cases second : after state with
    | none =>
      rcases other.cases here with ⟨-, fails⟩ | ⟨_, _, ran, -⟩
      · exact fails
      · exact absurd (second.symm.trans ran) (Option.some_ne_none _).symm
    | some next' =>
      have there := (other.writes state next' second).mono apart
      rcases other.cases here with ⟨fails, -⟩ | ⟨lone, final, ran, went, agree⟩
      · exact absurd (second.symm.trans fails) (Option.some_ne_none _)
      rcases one.cases there with ⟨fails, -⟩ | ⟨lone', final', ran', went', agree'⟩
      · exact absurd (first.symm.trans fails) (Option.some_ne_none _)
      obtain rfl := Option.some.inj (second.symm.trans ran)
      obtain rfl := Option.some.inj (first.symm.trans ran')
      rw [Option.bind_some, Option.bind_some, went, went', extensional final' final]
      intro i
      by_cases own : i ∈ cells
      · rw [other.writes next final went i (apart own), ← agree' i own]
      · rw [one.writes next' final' went' i own]
        by_cases foreign : i ∈ others
        · exact agree i foreign
        · rw [other.writes state next' second i foreign, other.writes next final went i foreign,
            one.writes state next first i own]

theorem execute_interleave {xs ys merged : List (S → Option S)} (order : Interleave xs ys merged)
    (left : ∀ action ∈ xs, Local cell cells action) (right : ∀ action ∈ ys, Local cell others action)
    (apart : cells ⊆ othersᶜ) (state : S) :
    Par.execute merged state = Par.execute (xs ++ ys) state := by
  induction order generalizing state with
  | nil => rfl
  | left rest ih =>
    rename_i action xs ys merged
    rw [List.cons_append, execute_cons, execute_cons]
    congr 1
    funext next
    exact ih (fun other member => left other (List.mem_cons_of_mem _ member)) right next
  | right rest ih =>
    rename_i action xs ys merged
    have first := right action List.mem_cons_self
    have before : Par.execute merged = Par.execute (xs ++ ys) :=
      funext (ih left fun other member => right other (List.mem_cons_of_mem _ member))
    -- the left thread as a whole goes before the action of the right one
    have swapped := (Local.execute left).commute extensional first apart state
    calc Par.execute (action :: merged) state
        = (action state).bind (Par.execute (xs ++ ys)) := by rw [execute_cons, before]
      _ = ((action state).bind (Par.execute xs)).bind (Par.execute ys) := by
        rw [Option.bind_assoc]
        congr 1
        funext next
        exact execute_append xs ys next
      _ = ((Par.execute xs state).bind action).bind (Par.execute ys) := by rw [swapped]
      _ = (Par.execute xs state).bind (Par.execute (action :: ys)) := Option.bind_assoc _ _ _
      _ = Par.execute (xs ++ action :: ys) state := (execute_append _ _ _).symm

end

end Par

inductive Plan (J : Type) where
  | job (job : J)
  | seq (first second : Plan J)
  | fork (left right : Plan J)

namespace Plan

variable {J S I A : Type}

def par (perform : J → S → Option S) : Plan J → Par S
  | job one => .act (perform one)
  | seq first second => .seq (first.par perform) (second.par perform)
  | fork left right => .fork (left.par perform) (right.par perform)

def jobs : Plan J → List J
  | job one => [one]
  | seq first second => first.jobs ++ second.jobs
  | fork left right => left.jobs ++ right.jobs

inductive Trace : Plan J → List J → Prop where
  | job (job : J) : Trace (.job job) [job]
  | seq {first second : Plan J} {xs ys : List J} (before : Trace first xs) (after : Trace second ys) :
    Trace (.seq first second) (xs ++ ys)
  | fork {left right : Plan J} {xs ys merged : List J} (one : Trace left xs) (other : Trace right ys)
    (order : Interleave xs ys merged) : Trace (.fork left right) merged

end Plan

theorem Interleave.map {A B : Type} (f : A → B) {xs ys merged : List A}
    (order : Interleave xs ys merged) : Interleave (xs.map f) (ys.map f) (merged.map f) := by
  induction order with
  | nil => exact .nil
  | left rest ih => exact .left ih
  | right rest ih => exact .right ih

theorem Interleave.of_map {A B : Type} (f : A → B) {xs ys : List A} {merged : List B}
    (order : Interleave (xs.map f) (ys.map f) merged) :
    ∃ origin, Interleave xs ys origin ∧ origin.map f = merged := by
  generalize images : xs.map f = lefts at order
  generalize images' : ys.map f = rights at order
  induction order generalizing xs ys with
  | nil =>
    rw [List.map_eq_nil_iff.mp images, List.map_eq_nil_iff.mp images']
    exact ⟨[], .nil, rfl⟩
  | left rest ih =>
    obtain ⟨x, others, rfl, rfl, rfl⟩ := List.map_eq_cons_iff.mp images
    obtain ⟨origin, order, same⟩ := ih rfl images'
    exact ⟨x :: origin, .left order, by rw [List.map_cons, same]⟩
  | right rest ih =>
    obtain ⟨y, others, rfl, rfl, rfl⟩ := List.map_eq_cons_iff.mp images'
    obtain ⟨origin, order, same⟩ := ih images rfl
    exact ⟨y :: origin, .right order, by rw [List.map_cons, same]⟩

theorem Interleave.prepend_left {A : Type} (first : List A) {xs ys merged : List A}
    (order : Interleave xs ys merged) : Interleave (first ++ xs) ys (first ++ merged) := by
  induction first with
  | nil => exact order
  | cons x rest ih => exact .left ih

theorem Interleave.prepend_right {A : Type} (first : List A) {xs ys merged : List A}
    (order : Interleave xs ys merged) : Interleave xs (first ++ ys) (first ++ merged) := by
  induction first with
  | nil => exact order
  | cons y rest ih => exact .right ih

theorem Interleave.perm {A : Type} {xs ys merged : List A} (order : Interleave xs ys merged) :
    merged.Perm (xs ++ ys) := by
  induction order with
  | nil => exact .refl []
  | left rest ih => exact ih.cons _
  | right rest ih => exact (ih.cons _).trans List.perm_middle.symm

namespace Plan

variable {J S I A : Type} {plan : Plan J} {perform : J → S → Option S}

theorem Trace.par {trace : List J} (taken : plan.Trace trace) :
    (plan.par perform).Trace (trace.map perform) := by
  induction taken with
  | job one => exact .act (perform one)
  | seq before after first second =>
    rw [List.map_append]
    exact .seq first second
  | fork one other order left right => exact .fork left right (order.map perform)

theorem trace_of_par {actions : List (S → Option S)} (taken : (plan.par perform).Trace actions) :
    ∃ trace, plan.Trace trace ∧ trace.map perform = actions := by
  induction plan generalizing actions with
  | job one =>
    cases taken
    exact ⟨[one], .job one, rfl⟩
  | seq first second before after =>
    cases taken with
    | seq one other =>
      obtain ⟨xs, early, rfl⟩ := before one
      obtain ⟨ys, late, rfl⟩ := after other
      exact ⟨xs ++ ys, .seq early late, List.map_append⟩
  | fork left right one other =>
    cases taken with
    | fork first second order =>
      obtain ⟨xs, lefts, rfl⟩ := one first
      obtain ⟨ys, rights, rfl⟩ := other second
      obtain ⟨merged, woven, rfl⟩ := order.of_map
      exact ⟨merged, .fork lefts rights woven, rfl⟩

theorem Trace.perm {trace : List J} (taken : plan.Trace trace) : trace.Perm plan.jobs := by
  induction taken with
  | job one => exact .refl _
  | seq before after first second => exact first.append second
  | fork one other order left right => exact order.perm.trans (left.append right)

theorem jobs_trace (plan : Plan J) : plan.Trace plan.jobs := by
  induction plan with
  | job one => exact .job one
  | seq first second before after => exact .seq before after
  | fork left right one other => exact .fork one other (.append _ _)

-- The two threads of a fork have no cell in common.
def Apart (cells : J → Set I) : Plan J → Prop
  | job _ => True
  | seq first second => first.Apart cells ∧ second.Apart cells
  | fork left right => left.Apart cells ∧ right.Apart cells ∧
    ∀ one ∈ left.jobs, ∀ other ∈ right.jobs, cells one ⊆ (cells other)ᶜ

variable {cell : S → I → A} {cells : J → Set I} {range : Set I}

theorem local_actions (alone : ∀ job ∈ plan.jobs, Par.Local cell (cells job) (perform job))
    (inside : ∀ job ∈ plan.jobs, cells job ⊆ range) {actions : List (S → Option S)}
    (taken : (plan.par perform).Trace actions) : ∀ action ∈ actions, Par.Local cell range action := by
  intro action member
  obtain ⟨trace, took, rfl⟩ := trace_of_par taken
  obtain ⟨job, performed, rfl⟩ := List.mem_map.mp member
  have listed := took.perm.subset performed
  exact (alone job listed).mono (inside job listed)

/-- All runs of a plan do the same. -/
theorem execute_trace (extensional : ∀ state other : S, (∀ i, cell other i = cell state i) → other = state)
    (alone : ∀ job ∈ plan.jobs, Par.Local cell (cells job) (perform job)) (apart : plan.Apart cells)
    {actions : List (S → Option S)} (taken : (plan.par perform).Trace actions) (state : S) :
    Par.execute actions state = Par.execute (plan.par perform).inOrder state := by
  induction plan generalizing actions state with
  | job one =>
    cases taken
    rfl
  | seq first second before after =>
    cases taken with
    | seq one other =>
      have first := before (fun job member => alone job (List.mem_append_left _ member)) apart.1 one
      have second := after (fun job member => alone job (List.mem_append_right _ member)) apart.2 other
      simp only [par, Par.inOrder, Par.execute_append, first, funext second]
  | fork left right one other =>
    have onLeft := fun job member => alone job (List.mem_append_left right.jobs member)
    have onRight := fun job member => alone job (List.mem_append_right left.jobs member)
    cases taken with
    | fork first second order =>
      have lefts := one onLeft apart.1 first
      have rights := other onRight apart.2.1 second
      have inLeft : ∀ action ∈ _, Par.Local cell (⋃ job ∈ left.jobs, cells job) action :=
        local_actions onLeft (fun job member => Set.subset_biUnion_of_mem (u := cells) member) first
      have inRight : ∀ action ∈ _, Par.Local cell (⋃ job ∈ right.jobs, cells job) action :=
        local_actions onRight (fun job member => Set.subset_biUnion_of_mem (u := cells) member) second
      have disjoint : (⋃ job ∈ left.jobs, cells job) ⊆ (⋃ job ∈ right.jobs, cells job)ᶜ := by
        simp only [Set.compl_iUnion, Set.iUnion_subset_iff, Set.subset_iInter_iff]
        exact fun other right one left => apart.2.2 one left other right
      rw [Par.execute_interleave extensional order inLeft inRight disjoint]
      simp only [par, Par.inOrder, Par.execute_append, lefts, funext rights]

end Plan

end SPHomework.Lib
