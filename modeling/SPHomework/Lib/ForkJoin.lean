import Mathlib.Data.Set.Lattice

set_option autoImplicit false

/-!
# Threads that are forked and joined

A program is made of actions on a shared state, one after the other or in two
threads that run at once. A trace of it is any interleaving. Threads that work
on disjoint cells of the state do what each of them does alone.
-/

namespace SPHomework.Lib

inductive Par (S : Type) where
  | act (action : S → Option S)
  | seq (first second : Par S)
  | fork (left right : Par S)

inductive Interleave {A : Type} : List A → List A → List A → Prop where
  | nil : Interleave [] [] []
  | left {x : A} {xs ys merged : List A} (rest : Interleave xs ys merged) :
    Interleave (x :: xs) ys (x :: merged)
  | right {y : A} {xs ys merged : List A} (rest : Interleave xs ys merged) :
    Interleave xs (y :: ys) (y :: merged)

theorem Interleave.append {A : Type} (xs ys : List A) : Interleave xs ys (xs ++ ys) := by
  induction xs with
  | nil =>
    induction ys with
    | nil => exact .nil
    | cons y ys ih => exact .right ih
  | cons x xs ih => exact .left ih

namespace Par

variable {S I A : Type}

inductive Trace : Par S → List (S → Option S) → Prop where
  | act (action : S → Option S) : Trace (.act action) [action]
  | seq {first second : Par S} {xs ys : List (S → Option S)} (before : Trace first xs)
    (after : Trace second ys) : Trace (.seq first second) (xs ++ ys)
  | fork {left right : Par S} {xs ys merged : List (S → Option S)} (one : Trace left xs)
    (other : Trace right ys) (order : Interleave xs ys merged) : Trace (.fork left right) merged

-- The run in which the left thread of every fork comes first.
def inOrder : Par S → List (S → Option S)
  | act action => [action]
  | seq first second => inOrder first ++ inOrder second
  | fork left right => inOrder left ++ inOrder right

theorem inOrder_trace (program : Par S) : Trace program (inOrder program) := by
  induction program with
  | act action => exact .act action
  | seq first second before after => exact .seq before after
  | fork left right one other => exact .fork one other (.append _ _)

def execute (trace : List (S → Option S)) (state : S) : Option S :=
  trace.foldlM (fun state action => action state) state

variable (cell : S → I → A)

def Agree (cells : Set I) (state other : S) : Prop := ∀ i ∈ cells, cell other i = cell state i

/-- The actions never fail and change only their own cells, `always` holds at every point, and
they end in `post`, whatever others do to the other cells. -/
def Safe (cells : Set I) (always post : S → Prop) : List (S → Option S) → S → Prop
  | [], state => ∀ later, Agree cell cells state later → always later ∧ post later
  | action :: rest, state => ∀ later, Agree cell cells state later →
    always later ∧ ∃ next, action later = some next ∧ Agree cell cellsᶜ later next ∧
      Safe cells always post rest next

variable {cell}

theorem Agree.refl (cells : Set I) (state : S) : Agree cell cells state state := fun _ _ => rfl

theorem Agree.trans {cells : Set I} {first second third : S} (before : Agree cell cells first second)
    (after : Agree cell cells second third) : Agree cell cells first third :=
  fun i inside => (after i inside).trans (before i inside)

theorem Agree.mono {cells larger : Set I} {state other : S} (agree : Agree cell larger state other)
    (part : cells ⊆ larger) : Agree cell cells state other :=
  fun i inside => agree i (part inside)

theorem Safe.stable {cells : Set I} {always post : S → Prop} {trace : List (S → Option S)}
    {state later : S} (safe : Safe cell cells always post trace state)
    (agree : Agree cell cells state later) : Safe cell cells always post trace later := by
  cases trace with
  | nil => exact fun final further => safe final (agree.trans further)
  | cons action rest => exact fun final further => safe final (agree.trans further)

theorem Safe.now {cells : Set I} {always post : S → Prop} {trace : List (S → Option S)} {state : S}
    (safe : Safe cell cells always post trace state) : always state := by
  cases trace with
  | nil => exact (safe state (.refl cells state)).1
  | cons action rest => exact (safe state (.refl cells state)).1

theorem Safe.weaken {cells : Set I} {always always' post post' : S → Prop}
    (holds : ∀ state, always state → always' state) (ends : ∀ state, post state → post' state)
    {trace : List (S → Option S)} {state : S} (safe : Safe cell cells always post trace state) :
    Safe cell cells always' post' trace state := by
  induction trace generalizing state with
  | nil =>
    intro later agree
    exact ⟨holds later (safe later agree).1, ends later (safe later agree).2⟩
  | cons action rest ih =>
    intro later agree
    obtain ⟨here, next, ran, kept, continued⟩ := safe later agree
    exact ⟨holds later here, next, ran, kept, ih continued⟩

theorem Safe.append {cells : Set I} {always middle post : S → Prop} {xs ys : List (S → Option S)}
    {state : S} (safe : Safe cell cells always middle xs state)
    (next : ∀ state, middle state → Safe cell cells always post ys state) :
    Safe cell cells always post (xs ++ ys) state := by
  induction xs generalizing state with
  | nil => exact next state (safe state (.refl cells state)).2
  | cons action rest ih =>
    intro later agree
    obtain ⟨here, after, ran, kept, continued⟩ := safe later agree
    exact ⟨here, after, ran, kept, ih continued⟩

theorem Safe.frame {cells larger : Set I} (part : cells ⊆ larger) {always post : S → Prop}
    {trace : List (S → Option S)} {origin state : S}
    (kept : Agree cell (larger \ cells) origin state) (safe : Safe cell cells always post trace state) :
    Safe cell larger (fun now => always now ∧ Agree cell (larger \ cells) origin now)
      (fun now => post now ∧ Agree cell (larger \ cells) origin now) trace state := by
  induction trace generalizing state with
  | nil =>
    intro later agree
    have kept' := kept.trans (agree.mono Set.sdiff_subset)
    obtain ⟨here, ends⟩ := safe later (agree.mono part)
    exact ⟨⟨here, kept'⟩, ends, kept'⟩
  | cons action rest ih =>
    intro later agree
    have kept' := kept.trans (agree.mono Set.sdiff_subset)
    obtain ⟨here, next, ran, unmoved, continued⟩ := safe later (agree.mono part)
    refine ⟨⟨here, kept'⟩, next, ran, unmoved.mono (Set.compl_subset_compl.mpr part), ih ?_ continued⟩
    exact kept'.trans (unmoved.mono fun i inside => inside.2)

theorem Safe.interleave {cells cells' : Set I} {always always' post post' : S → Prop}
    (apart : cells ⊆ cells'ᶜ) {xs ys merged : List (S → Option S)}
    (order : Interleave xs ys merged) {state : S} (one : Safe cell cells always post xs state)
    (other : Safe cell cells' always' post' ys state) :
    Safe cell (cells ∪ cells') (fun state => always state ∧ always' state)
      (fun state => post state ∧ post' state) merged state := by
  induction order generalizing state with
  | nil =>
    intro later agree
    obtain ⟨here, ends⟩ := one later (agree.mono Set.subset_union_left)
    obtain ⟨here', ends'⟩ := other later (agree.mono Set.subset_union_right)
    exact ⟨⟨here, here'⟩, ends, ends'⟩
  | left rest ih =>
    intro later agree
    have aside := other.stable (agree.mono Set.subset_union_right)
    obtain ⟨here, next, ran, kept, continued⟩ := one later (agree.mono Set.subset_union_left)
    -- the step of one thread is nothing to the other
    have unmoved : Agree cell cells' later next := kept.mono (Set.subset_compl_comm.mp apart)
    refine ⟨⟨here, aside.now⟩, next, ran, ?_, ih continued (aside.stable unmoved)⟩
    exact kept.mono (Set.compl_subset_compl.mpr Set.subset_union_left)
  | right rest ih =>
    intro later agree
    have aside := one.stable (agree.mono Set.subset_union_left)
    obtain ⟨here, next, ran, kept, continued⟩ := other later (agree.mono Set.subset_union_right)
    have unmoved : Agree cell cells later next := kept.mono apart
    refine ⟨⟨aside.now, here⟩, next, ran, ?_, ih (aside.stable unmoved) continued⟩
    exact kept.mono (Set.compl_subset_compl.mpr Set.subset_union_right)

theorem Safe.execute {cells : Set I} {always post : S → Prop} {trace : List (S → Option S)} {state : S}
    (safe : Safe cell cells always post trace state) :
    ∃ final, Par.execute trace state = some final ∧ post final := by
  induction trace generalizing state with
  | nil => exact ⟨state, rfl, (safe state (.refl cells state)).2⟩
  | cons action rest ih =>
    obtain ⟨-, next, ran, -, continued⟩ := safe state (.refl cells state)
    obtain ⟨final, done, holds⟩ := ih continued
    exact ⟨final, by simpa [Par.execute, ran] using done, holds⟩

theorem Safe.throughout {cells : Set I} {always post : S → Prop} {trace done : List (S → Option S)}
    {state : S} (safe : Safe cell cells always post trace state) (part : done <+: trace) :
    ∃ reached, Par.execute done state = some reached ∧ always reached := by
  induction done generalizing trace state with
  | nil => exact ⟨state, rfl, safe.now⟩
  | cons action done ih =>
    obtain ⟨rest, rfl⟩ := part
    obtain ⟨-, next, ran, -, continued⟩ := safe state (.refl cells state)
    obtain ⟨reached, went, holds⟩ := ih continued (List.prefix_append done rest)
    exact ⟨reached, by simpa [Par.execute, ran] using went, holds⟩

variable (cell)

def Correct (cells : Set I) (always post : S → Prop) (program : Par S) (state : S) : Prop :=
  ∀ trace, program.Trace trace → Safe cell cells always post trace state

variable {cell}

-- `always` and `post` have to be about the cells only.
theorem Correct.act {cells : Set I} {always post : S → Prop} {action : S → Option S} {state : S}
    (keeps : ∀ now later, Agree cell cells now later → always now → always later)
    (ends : ∀ now later, Agree cell cells now later → post now → post later) (start : always state)
    (step : ∀ now, Agree cell cells state now → ∃ next, action now = some next ∧
      Agree cell cellsᶜ now next ∧ always next ∧ post next) :
    Correct cell cells always post (.act action) state := by
  intro trace taken
  cases taken
  intro now agree
  obtain ⟨next, ran, outside, holds, done⟩ := step now agree
  refine ⟨keeps state now agree start, next, ran, outside, ?_⟩
  exact fun later further => ⟨keeps next later further holds, ends next later further done⟩

theorem Correct.seq {cells : Set I} {always middle post : S → Prop} {first second : Par S} {state : S}
    (before : Correct cell cells always middle first state)
    (after : ∀ state, middle state → Correct cell cells always post second state) :
    Correct cell cells always post (.seq first second) state := by
  intro trace taken
  cases taken with
  | seq one other => exact (before _ one).append fun state holds => after state holds _ other

theorem Correct.fork {cells cells' : Set I} {always always' post post' : S → Prop} {left right : Par S}
    {state : S} (apart : cells ⊆ cells'ᶜ) (one : Correct cell cells always post left state)
    (other : Correct cell cells' always' post' right state) :
    Correct cell (cells ∪ cells') (fun state => always state ∧ always' state)
      (fun state => post state ∧ post' state) (.fork left right) state := by
  intro trace taken
  cases taken with
  | fork first second order => exact .interleave apart order (one _ first) (other _ second)

theorem Correct.frame {cells larger : Set I} (part : cells ⊆ larger) {always post : S → Prop}
    {program : Par S} {state : S} (correct : Correct cell cells always post program state) :
    Correct cell larger (fun now => always now ∧ Agree cell (larger \ cells) state now)
      (fun now => post now ∧ Agree cell (larger \ cells) state now) program state :=
  fun trace taken => (correct trace taken).frame part (.refl _ state)

theorem Correct.weaken {cells : Set I} {always always' post post' : S → Prop} {program : Par S}
    {state : S} (holds : ∀ state, always state → always' state)
    (ends : ∀ state, post state → post' state) (correct : Correct cell cells always post program state) :
    Correct cell cells always' post' program state :=
  fun trace taken => (correct trace taken).weaken holds ends

end Par

end SPHomework.Lib
