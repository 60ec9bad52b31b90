import SPHomework.Lib.Run
import SPHomework.MovieSort.Plans

set_option autoImplicit false

/-!
# The processes of a sort

Each call of `process_merge_sort` is a process of its own, except the one of
`main`. A child that exits stays until its parent waits for it.
-/

namespace SPHomework.MovieSort

open Lib

-- What comes after the call: `main` goes on, and a child has an `exit(0);` there.
inductive Caller where
  | main
  | child
  deriving DecidableEq

inductive Side where
  | left
  | right
  deriving DecidableEq

/-- A process with the children that it has not waited for, by the layers that are left. It is in
its call, from `entered` to the merge after both waits, `leaving` by `exit(0);`, or its call has
`returned`. -/
inductive Proc : Nat → Type where
  | entered {layers : Nat} : Proc layers
  | leftForked {below : Nat} (left : Proc below) : Proc (below + 1)
  | bothForked {below : Nat} (left right : Proc below) : Proc (below + 1)
  | oneReaped {below : Nat} (reaped : Side) (other : Proc below) : Proc (below + 1)
  | bothReaped {below : Nat} : Proc (below + 1)
  | leaving {layers : Nat} : Proc layers
  | returned {layers : Nat} : Proc layers
  | inMain {layers : Nat} : Proc layers
  | exited {layers : Nat} : Proc layers

-- Which process moves, and the child that a `wait` takes if it is one.
inductive Move where
  | here (reaps : Side)
  | left (move : Move)
  | right (move : Move)

namespace Proc

def leave (caller : Caller) {layers : Nat} : Proc layers :=
  match caller with
  | .main => inMain
  | .child => leaving

-- A step of a child.
def within {below layers : Nat} (wrap : Proc below → Proc layers)
    (stepped : Option (Proc below × Option Job)) : Option (Proc layers × Option Job) :=
  stepped.map fun after => (wrap after.1, after.2)

theorem within_some {below layers : Nat} {wrap : Proc below → Proc layers}
    {stepped : Option (Proc below × Option Job)} {next : Proc layers} {job : Option Job} :
    within wrap stepped = some (next, job) ↔ ∃ child, stepped = some (child, job) ∧ wrap child = next := by
  simp [within]

/-- A step of `process_merge_sort(l, r, ...)` or of a process below it, and the job that it does. -/
def step : {layers : Nat} → (caller : Caller) → (isparent : Bool) → (l r : Nat) → Proc layers → Move →
    Option (Proc layers × Option Job)
  | 0, _, _, l, r, entered, .here _ => some (leaving, some (.sort l r))
  | _ + 1, _, _, _, _, entered, .here _ => some (leftForked entered, none)
  | _ + 1, _, _, _, _, leftForked left, .here _ => some (bothForked left entered, none)
  | _ + 1, _, _, l, r, leftForked left, .left move =>
    within leftForked (step .child false l ((l + r) / 2) left move)
  | _ + 1, _, _, _, _, bothForked exited right, .here .left => some (oneReaped .left right, none)
  | _ + 1, _, _, _, _, bothForked left exited, .here .right => some (oneReaped .right left, none)
  | _ + 1, _, _, l, r, bothForked left right, .left move =>
    within (bothForked · right) (step .child false l ((l + r) / 2) left move)
  | _ + 1, _, _, l, r, bothForked left right, .right move =>
    within (bothForked left) (step .child true ((l + r) / 2) r right move)
  | _ + 1, _, _, _, _, oneReaped _ exited, .here _ => some (bothReaped, none)
  | _ + 1, _, _, l, r, oneReaped .right left, .left move =>
    within (oneReaped .right) (step .child false l ((l + r) / 2) left move)
  | _ + 1, _, _, l, r, oneReaped .left right, .right move =>
    within (oneReaped .left) (step .child true ((l + r) / 2) r right move)
  | _ + 1, _, isparent, l, r, bothReaped, .here _ =>
    some (if isparent then returned else leaving, some (.merge l ((l + r) / 2) r))
  | _, caller, _, _, _, returned, .here _ => some (leave caller, none)
  | _, _, _, _, _, leaving, .here _ => some (exited, none)
  | _, _, _, _, _, _, _ => none

/-- What a step can be: of the process itself, or of a child that it has not waited for. -/
inductive Does : {layers : Nat} → Caller → Bool → Nat → Nat → Proc layers → Proc layers →
    Option Job → Prop where
  | sorts {caller : Caller} {isparent : Bool} {l r : Nat} :
    Does caller isparent l r (@entered 0) leaving (some (.sort l r))
  | forksLeft {below : Nat} {caller : Caller} {isparent : Bool} {l r : Nat} :
    Does caller isparent l r (@entered (below + 1)) (leftForked entered) none
  | forksRight {below : Nat} {caller : Caller} {isparent : Bool} {l r : Nat} {left : Proc below} :
    Does caller isparent l r (leftForked left) (bothForked left entered) none
  | reapsLeft {below : Nat} {caller : Caller} {isparent : Bool} {l r : Nat} {right : Proc below} :
    Does caller isparent l r (bothForked exited right) (oneReaped .left right) none
  | reapsRight {below : Nat} {caller : Caller} {isparent : Bool} {l r : Nat} {left : Proc below} :
    Does caller isparent l r (bothForked left exited) (oneReaped .right left) none
  | reapsLast {below : Nat} {caller : Caller} {isparent : Bool} {l r : Nat} {reaped : Side} :
    Does caller isparent l r (oneReaped reaped (@exited below)) bothReaped none
  | merges {below : Nat} {caller : Caller} {isparent : Bool} {l r : Nat} :
    Does caller isparent l r (@bothReaped below) (if isparent then returned else leaving)
      (some (.merge l ((l + r) / 2) r))
  | leaves {layers : Nat} {caller : Caller} {isparent : Bool} {l r : Nat} :
    Does caller isparent l r (@returned layers) (leave caller) none
  | exits {layers : Nat} {caller : Caller} {isparent : Bool} {l r : Nat} :
    Does caller isparent l r (@leaving layers) exited none
  | leftAlone {below : Nat} {caller : Caller} {isparent : Bool} {l r : Nat} {left next : Proc below}
    {job : Option Job} (child : Does .child false l ((l + r) / 2) left next job) :
    Does caller isparent l r (leftForked left) (leftForked next) job
  | left {below : Nat} {caller : Caller} {isparent : Bool} {l r : Nat} {left right next : Proc below}
    {job : Option Job} (child : Does .child false l ((l + r) / 2) left next job) :
    Does caller isparent l r (bothForked left right) (bothForked next right) job
  | right {below : Nat} {caller : Caller} {isparent : Bool} {l r : Nat} {left right next : Proc below}
    {job : Option Job} (child : Does .child true ((l + r) / 2) r right next job) :
    Does caller isparent l r (bothForked left right) (bothForked left next) job
  | leftLast {below : Nat} {caller : Caller} {isparent : Bool} {l r : Nat} {left next : Proc below}
    {job : Option Job} (child : Does .child false l ((l + r) / 2) left next job) :
    Does caller isparent l r (oneReaped .right left) (oneReaped .right next) job
  | rightLast {below : Nat} {caller : Caller} {isparent : Bool} {l r : Nat} {right next : Proc below}
    {job : Option Job} (child : Does .child true ((l + r) / 2) r right next job) :
    Does caller isparent l r (oneReaped .left right) (oneReaped .left next) job

theorem step_does {layers : Nat} (caller : Caller) (isparent : Bool) (l r : Nat) (proc next : Proc layers)
    (move : Move) (job : Option Job) (taken : step caller isparent l r proc move = some (next, job)) :
    Does caller isparent l r proc next job := by
  fun_induction step caller isparent l r proc move
  case case1 => cases taken; exact .sorts
  case case2 => cases taken; exact .forksLeft
  case case3 => cases taken; exact .forksRight
  case case4 ih =>
    obtain ⟨child, ran, rfl⟩ := within_some.mp taken
    exact .leftAlone (ih child ran)
  case case5 => cases taken; exact .reapsLeft
  case case6 => cases taken; exact .reapsRight
  case case7 ih =>
    obtain ⟨child, ran, rfl⟩ := within_some.mp taken
    exact .left (ih child ran)
  case case8 ih =>
    obtain ⟨child, ran, rfl⟩ := within_some.mp taken
    exact .right (ih child ran)
  case case9 => cases taken; exact .reapsLast
  case case10 ih =>
    obtain ⟨child, ran, rfl⟩ := within_some.mp taken
    exact .leftLast (ih child ran)
  case case11 ih =>
    obtain ⟨child, ran, rfl⟩ := within_some.mp taken
    exact .rightLast (ih child ran)
  case case12 => cases taken; exact .merges
  case case13 => cases taken; exact .leaves
  case case14 => cases taken; exact .exits
  case case15 => cases taken

-- The processes in which the call of `main` has returned, by their place in the tree.
def returnedIn : {layers : Nat} → Proc layers → List (List Side)
  | _, inMain => [[]]
  | _, leftForked left => left.returnedIn.map (Side.left :: ·)
  | _, bothForked left right =>
    left.returnedIn.map (Side.left :: ·) ++ right.returnedIn.map (Side.right :: ·)
  | _, oneReaped .left right => right.returnedIn.map (Side.right :: ·)
  | _, oneReaped .right left => left.returnedIn.map (Side.left :: ·)
  | _, _ => []

-- How many steps a call with this many layers left can take, with those of its children.
def cost : Nat → Nat
  | 0 => 2
  | below + 1 => 2 * cost below + 7

def remaining : {layers : Nat} → Proc layers → Nat
  | _, @entered layers => cost layers
  | _, @leftForked below left => left.remaining + cost below + 6
  | _, bothForked left right => left.remaining + right.remaining + 5
  | _, oneReaped _ other => other.remaining + 4
  | _, bothReaped => 3
  | _, returned => 2
  | _, leaving => 1
  | _, inMain => 0
  | _, exited => 0
termination_by structural _ proc => proc

theorem remaining_step {layers : Nat} {caller : Caller} {isparent : Bool} {l r : Nat}
    {proc next : Proc layers} {job : Option Job} (does : Does caller isparent l r proc next job) :
    next.remaining < proc.remaining := by
  induction does with
  | @merges _ _ isparent => cases isparent <;> simp [remaining]
  | @leaves _ caller => cases caller <;> simp [remaining, leave]
  | _ =>
    simp only [remaining, cost]
    omega

theorem returnedIn_step {layers : Nat} {caller : Caller} {isparent : Bool} {l r : Nat}
    {proc next : Proc layers} {job : Option Job} (does : Does caller isparent l r proc next job)
    (before : ∀ path ∈ proc.returnedIn, path = [] ∧ caller = .main) :
    ∀ path ∈ next.returnedIn, path = [] ∧ caller = .main := by
  -- a child is not called by `main`, so that nothing is in `main` below it
  have below : ∀ {layers : Nat} {child : Proc layers},
      (∀ path ∈ child.returnedIn, path = [] ∧ Caller.child = .main) ↔ child.returnedIn = [] := by
    intro layers child
    rw [List.eq_nil_iff_forall_not_mem]
    exact ⟨fun all path member => absurd (all path member).2 (by decide),
      fun none path member => absurd member (none path)⟩
  have nested : ∀ {layers : Nat} {child : Proc layers} {side : Side} {caller : Caller},
      (∀ path ∈ child.returnedIn.map (side :: ·), path = [] ∧ caller = .main) ↔ child.returnedIn = [] := by
    intro layers child side caller
    rw [List.forall_mem_map, List.eq_nil_iff_forall_not_mem]
    exact ⟨fun all path member => absurd (all path member).1 (by simp),
      fun none path member => absurd member (none path)⟩
  induction does with
  | @merges _ _ isparent => cases isparent <;> simp [returnedIn]
  | @leaves _ caller => cases caller <;> simp [returnedIn, leave]
  | leftAlone child ih =>
    simp only [returnedIn, nested] at before ⊢
    exact below.mp (ih (below.mpr before))
  | left child ih =>
    simp only [returnedIn, List.forall_mem_append, nested] at before ⊢
    exact ⟨below.mp (ih (below.mpr before.1)), before.2⟩
  | right child ih =>
    simp only [returnedIn, List.forall_mem_append, nested] at before ⊢
    exact ⟨before.1, below.mp (ih (below.mpr before.2))⟩
  | leftLast child ih =>
    simp only [returnedIn, nested] at before ⊢
    exact below.mp (ih (below.mpr before))
  | rightLast child ih =>
    simp only [returnedIn, nested] at before ⊢
    exact below.mp (ih (below.mpr before))
  | reapsLeft =>
    simp only [returnedIn, List.forall_mem_append] at before ⊢
    exact before.2
  | reapsRight =>
    simp only [returnedIn, List.forall_mem_append] at before ⊢
    exact before.1
  | forksRight => simpa [returnedIn] using before
  | _ => simp [returnedIn]

-- The original process does not exit inside the call, unless it starts in layer 3.
theorem stays_step {layers : Nat} {l r : Nat} {proc next : Proc layers} {job : Option Job}
    (deep : layers ≠ 0) (does : Does .main true l r proc next job)
    (before : proc ≠ leaving ∧ proc ≠ exited) : next ≠ leaving ∧ next ≠ exited := by
  cases does with
  | sorts => exact absurd rfl deep
  | exits => exact absurd rfl before.1
  | _ => simp [leave]

theorem within_exists {below layers : Nat} (wrap : Proc below → Proc layers)
    {stepped : Option (Proc below × Option Job)} (goes : ∃ next, stepped = some next) :
    ∃ next, within wrap stepped = some next := by
  obtain ⟨next, rfl⟩ := goes
  exact ⟨_, rfl⟩

-- A process that can do nothing has exited, or is the original one and back in `main`.
theorem step_exists {layers : Nat} (caller : Caller) (isparent : Bool) (l r : Nat) (proc : Proc layers)
    (confined : ∀ path ∈ proc.returnedIn, path = [] ∧ caller = .main) (running : proc ≠ exited)
    (inside : proc ≠ inMain) : ∃ move next, step caller isparent l r proc move = some next := by
  -- a child that has not exited goes on
  have child : ∀ {below : Nat} {child : Proc below} {side : Side} {caller : Caller},
      (∀ path ∈ child.returnedIn.map (side :: ·), path = [] ∧ caller = .main) →
      (∀ path ∈ child.returnedIn, path = [] ∧ Caller.child = .main) ∧ child ≠ inMain := by
    intro below child side caller confined
    rw [List.forall_mem_map] at confined
    refine ⟨fun path member => absurd (confined path member).1 (by simp), ?_⟩
    rintro rfl
    exact absurd (confined [] List.mem_cons_self).1 (by simp)
  induction proc generalizing caller isparent l r with
  | @entered layers => cases layers <;> exact ⟨.here .left, _, rfl⟩
  | leftForked left ih => exact ⟨.here .left, _, rfl⟩
  | bothForked left right ihLeft ihRight =>
    simp only [returnedIn, List.forall_mem_append] at confined
    by_cases ended : left = exited
    · exact ⟨.here .left, _, by rw [ended, step]⟩
    · obtain ⟨alone, outside⟩ := child confined.1
      obtain ⟨move, goes⟩ := ihLeft .child false l ((l + r) / 2) alone ended outside
      exact ⟨.left move, by rw [step]; exact within_exists _ goes⟩
  | @oneReaped below reaped other ih =>
    by_cases ended : other = exited
    · exact ⟨.here .left, _, by rw [ended, step]⟩
    · cases reaped with
      | left =>
        obtain ⟨alone, outside⟩ := child confined
        obtain ⟨move, goes⟩ := ih .child true ((l + r) / 2) r alone ended outside
        exact ⟨.right move, by rw [step]; exact within_exists _ goes⟩
      | right =>
        obtain ⟨alone, outside⟩ := child confined
        obtain ⟨move, goes⟩ := ih .child false l ((l + r) / 2) alone ended outside
        exact ⟨.left move, by rw [step]; exact within_exists _ goes⟩
  | bothReaped => exact ⟨.here .left, _, rfl⟩
  | leaving => exact ⟨.here .left, _, by rw [step]⟩
  | returned => exact ⟨.here .left, _, by rw [step]⟩
  | inMain => exact absurd rfl inside
  | exited => exact absurd rfl running

theorem step_over {layers : Nat} (caller : Caller) (isparent : Bool) (l r : Nat) (move : Move) :
    step caller isparent l r (@inMain layers) move = none := by
  cases layers <;> cases move <;> rfl

end Proc

-- Two threads with what they still have to do, and the merge after them.
inductive Joined (One Other : List Job → Prop) (merge : Job) : List Job → Prop where
  | intro {xs ys merged : List Job} (one : One xs) (other : Other ys) (order : Interleave xs ys merged) :
    Joined One Other merge (merged ++ [merge])

namespace Proc

/-- The jobs that may still be done, in order. -/
def Rest : {layers : Nat} → (l r : Nat) → Proc layers → List Job → Prop
  | _, l, r, @entered layers => (processPlan layers l r).Trace
  | _, l, r, @leftForked below left =>
    let mid := (l + r) / 2
    Joined (left.Rest l mid) (processPlan below mid r).Trace (.merge l mid r)
  | _, l, r, bothForked left right =>
    let mid := (l + r) / 2
    Joined (left.Rest l mid) (right.Rest mid r) (.merge l mid r)
  | _, l, r, oneReaped .left right =>
    let mid := (l + r) / 2
    Joined (· = []) (right.Rest mid r) (.merge l mid r)
  | _, l, r, oneReaped .right left =>
    let mid := (l + r) / 2
    Joined (left.Rest l mid) (· = []) (.merge l mid r)
  | _, l, r, bothReaped => Joined (· = []) (· = []) (.merge l ((l + r) / 2) r)
  | _, _, _, leaving => (· = [])
  | _, _, _, returned => (· = [])
  | _, _, _, inMain => (· = [])
  | _, _, _, exited => (· = [])
termination_by structural _ _ _ proc => proc

theorem Joined_left {One One' Other : List Job → Prop} {merge : Job} {first rest : List Job}
    (goes : ∀ xs, One' xs → One (first ++ xs)) (joined : Joined One' Other merge rest) :
    Joined One Other merge (first ++ rest) := by
  cases joined with
  | intro one other order =>
    rw [← List.append_assoc]
    exact .intro (goes _ one) other (order.prepend_left first)

theorem Joined_right {One Other Other' : List Job → Prop} {merge : Job} {first rest : List Job}
    (goes : ∀ ys, Other' ys → Other (first ++ ys)) (joined : Joined One Other' merge rest) :
    Joined One Other merge (first ++ rest) := by
  cases joined with
  | intro one other order =>
    rw [← List.append_assoc]
    exact .intro one (goes _ other) (order.prepend_right first)

theorem rest_step {layers : Nat} {caller : Caller} {isparent : Bool} {l r : Nat}
    {proc next : Proc layers} {job : Option Job} (does : Does caller isparent l r proc next job)
    {rest : List Job} (after : next.Rest l r rest) : proc.Rest l r (job.toList ++ rest) := by
  induction does generalizing rest with
  | sorts =>
    obtain rfl : rest = [] := after
    exact .job _
  | forksLeft =>
    cases after with
    | @intro xs ys merged one other order =>
      have forked : (Plan.fork _ _).Trace merged := .fork one other order
      rw [Option.toList_none, List.nil_append]
      exact .seq forked (.job _)
  | forksRight => exact after
  | reapsLeft => exact after
  | reapsRight => exact after
  | @reapsLast _ _ _ _ _ reaped => cases reaped <;> exact after
  | @merges _ _ isparent =>
    have nothing : rest = [] := by cases isparent <;> exact after
    subst nothing
    exact @Joined.intro (· = []) (· = []) _ [] [] [] rfl rfl .nil
  | @leaves _ caller => cases caller <;> exact after
  | exits => exact after
  | leftAlone child ih => exact Joined_left (fun _ => ih) after
  | left child ih => exact Joined_left (fun _ => ih) after
  | right child ih => exact Joined_right (fun _ => ih) after
  | leftLast child ih => exact Joined_left (fun _ => ih) after
  | rightLast child ih => exact Joined_right (fun _ => ih) after

theorem exists_rest {layers : Nat} (l r : Nat) (proc : Proc layers) : ∃ rest, proc.Rest l r rest := by
  have nothing : ∃ rest : List Job, rest = [] := ⟨[], rfl⟩
  have join : ∀ {One Other : List Job → Prop} {merge : Job}, (∃ xs, One xs) → (∃ ys, Other ys) →
      ∃ rest, Joined One Other merge rest := by
    rintro One Other merge ⟨xs, one⟩ ⟨ys, other⟩
    exact ⟨_, .intro one other (.append xs ys)⟩
  induction proc generalizing l r with
  | entered => exact ⟨_, Plan.jobs_trace _⟩
  | leftForked left ih => exact join (ih _ _) ⟨_, Plan.jobs_trace _⟩
  | bothForked left right ihLeft ihRight => exact join (ihLeft _ _) (ihRight _ _)
  | oneReaped reaped other ih =>
    cases reaped with
    | left => exact join nothing (ih _ _)
    | right => exact join (ih _ _) nothing
  | bothReaped => exact join nothing nothing
  | _ => exact nothing

end Proc

-- The memory is gone with a failed assertion or a copy past the end of a buffer.
structure World (S : Type) (layers : Nat) where
  original : Proc layers
  memory : Option (Shared S)

namespace World

variable {S : Type} [Score S] {layers : Nat}

def start (shared : Shared S) : World S layers := ⟨.entered, some shared⟩

def step (numOfMovies n : Nat) (world : World S layers) (move : Move) : Option (World S layers) :=
  (Proc.step .main true 0 n world.original move).map fun (original, job) =>
    ⟨original, job.elim world.memory fun job => world.memory.bind (job.inProcesses numOfMovies)⟩

theorem step_does (numOfMovies n : Nat) (world next : World S layers) (move : Move)
    (taken : step numOfMovies n world move = some next) :
    ∃ job, Proc.Does .main true 0 n world.original next.original job ∧
      next.memory = world.memory.bind (Par.execute (job.toList.map (Job.inProcesses numOfMovies))) := by
  obtain ⟨⟨original, job⟩, stepped, rfl⟩ := Option.map_eq_some_iff.mp taken
  refine ⟨job, Proc.step_does .main true 0 n _ _ move job stepped, ?_⟩
  cases job with
  | none =>
    have same : Par.execute [] = (some : Shared S → Option (Shared S)) := rfl
    simp [same]
  | some job =>
    have same : Par.execute [job.inProcesses numOfMovies] = job.inProcesses (S := S) numOfMovies := by
      funext shared
      simp [Par.execute]
    simp [same]

/-- What a run has done, put before anything that the processes may still do, is a run of the plan. -/
theorem run_does (numOfMovies n : Nat) (world final : World S layers) (moves : List Move)
    (ran : run (step numOfMovies n) world moves = some final) :
    moves.length + final.original.remaining ≤ world.original.remaining ∧
    ((∀ path ∈ world.original.returnedIn, path = []) → ∀ path ∈ final.original.returnedIn, path = []) ∧
    ∃ jobs, final.memory = world.memory.bind (Par.execute (jobs.map (Job.inProcesses numOfMovies))) ∧
      ∀ rest, final.original.Rest 0 n rest → world.original.Rest 0 n (jobs ++ rest) := by
  induction moves generalizing world with
  | nil =>
    rw [run_nil, Option.some.injEq] at ran
    subst ran
    have same : Par.execute [] = (some : Shared S → Option (Shared S)) := rfl
    exact ⟨by simp, fun before => before, [], by simp [same], fun rest after => after⟩
  | cons move rest ih =>
    obtain ⟨next, taken, continued⟩ := (run_cons _ _ _ _ _).mp ran
    obtain ⟨job, does, memory⟩ := step_does numOfMovies n world next move taken
    obtain ⟨bounded, confined, jobs, memory', before⟩ := ih next continued
    have less := Proc.remaining_step does
    refine ⟨?_, ?_, job.toList ++ jobs, ?_, ?_⟩
    · rw [List.length_cons]
      omega
    · intro alone
      refine confined fun path member => ?_
      exact (Proc.returnedIn_step does (fun path member => ⟨alone path member, rfl⟩) path member).1
    · rw [memory', memory, Option.bind_assoc, List.map_append]
      congr 1
      funext shared
      exact (Par.execute_append _ _ shared).symm
    · intro rest after
      rw [List.append_assoc]
      exact Proc.rest_step does (before rest after)

theorem run_stays (numOfMovies n : Nat) (deep : layers ≠ 0) (shared : Shared S) (final : World S layers)
    (moves : List Move) (ran : run (step numOfMovies n) (start shared) moves = some final) :
    final.original ≠ .leaving ∧ final.original ≠ .exited := by
  apply run_invariant (step numOfMovies n) (fun world => world.original ≠ .leaving ∧ world.original ≠ .exited)
    ?_ _ final moves ?_ ran
  · intro world move next before taken
    obtain ⟨job, does, -⟩ := step_does numOfMovies n world next move taken
    exact Proc.stays_step deep does before
  · simp [start]

theorem step_none (numOfMovies n : Nat) (world : World S layers) (move : Move) :
    step numOfMovies n world move = none ↔ Proc.step .main true 0 n world.original move = none :=
  Option.map_eq_none_iff

end World

section

variable {S : Type} [Score S]

/-- Whatever the order of the processes and of their waits, `process_merge_sort` comes back to `main`
in the original process, the others having exited, with the entries in order. -/
theorem process_sort_any_order (numOfMovies n : Nat) (filtered : Arrays S) (enough : 10 ≤ n)
    (bound : n ≤ numOfMovies) (proper : ∀ i < n, Proper (filtered.cell i))
    (moves : List Move) (world : World S (3 - startLayer n))
    (ran : run (World.step numOfMovies n) (.start (Shared.ofArrays filtered)) moves = some world) :
    moves.length ≤ Proc.cost (3 - startLayer n) ∧
    (∀ path ∈ world.original.returnedIn, path = []) ∧
    (∃ shared, world.memory = some shared ∧ shared.Kept (filtered.slice 0 n) 0 n) ∧
    ((∀ move, World.step numOfMovies n world move = none) ↔ world.original = .inMain) ∧
    (world.original = .inMain → ∃ shared, ∃ order : List (Entry S), world.memory = some shared ∧
      order.Perm (filtered.slice 0 n) ∧ order.Pairwise Before ∧
      shared.view.slice 0 n = order.map decorate ∧ shared.Closed 0 n) := by
  obtain ⟨bounded, confined, jobs, memory, before⟩ := World.run_does numOfMovies n _ world moves ran
  have confined := confined fun path member => absurd member (List.not_mem_nil)
  have proper' : ∀ entry ∈ filtered.slice 0 n, Proper entry := by
    intro entry member
    obtain ⟨i, inside, rfl⟩ := mem_slice.mp member
    exact proper i inside.2
  have wide := startLayer_fits n (by omega)
  have correct := processMergeSort_correct numOfMovies (3 - startLayer n) 0 n true
    (Shared.ofArrays filtered) (by omega) (by omega) (fun _ _ => rfl) proper'
  -- what was done so far, followed by what remains, is a run of the whole
  have whole : ∀ rest, world.original.Rest 0 n rest → Par.Safe Shared.cell (Set.Ico 0 n)
      (fun now => now.Kept (filtered.slice 0 n) 0 n) (fun now => now.Sorted (filtered.slice 0 n) 0 n)
      ((jobs ++ rest).map (Job.inProcesses numOfMovies)) (Shared.ofArrays filtered) := by
    intro rest after
    have taken : (processPlan (3 - startLayer n) 0 n).Trace (jobs ++ rest) := before rest after
    apply correct
    rw [← processMergeSort_plan]
    exact taken.par
  refine ⟨(Nat.le_add_right _ _).trans bounded, confined, ?_, ?_, ?_⟩
  · obtain ⟨rest, after⟩ := world.original.exists_rest 0 n
    have safe := whole rest after
    rw [List.map_append] at safe
    obtain ⟨shared, went, kept⟩ := safe.throughout (List.prefix_append _ _)
    exact ⟨shared, memory.trans went, kept⟩
  · have deep : 3 - startLayer n ≠ 0 := by
      unfold startLayer
      split_ifs <;> omega
    have stays := World.run_stays numOfMovies n deep _ world moves ran
    constructor
    · intro stuck
      by_contra inside
      obtain ⟨move, next, goes⟩ := Proc.step_exists .main true 0 n world.original
        (fun path member => ⟨confined path member, rfl⟩) stays.2 inside
      have blocked := (World.step_none numOfMovies n world move).mp (stuck move)
      exact absurd (goes.symm.trans blocked) (Option.some_ne_none _)
    · intro back move
      rw [World.step_none, back, Proc.step_over]
  · intro back
    have safe := whole [] (by rw [back]; rfl)
    rw [List.append_nil] at safe
    obtain ⟨shared, went, arranged, closed⟩ := safe.execute
    obtain ⟨order, perm, sorted, cells⟩ := arranged.order proper'
    exact ⟨shared, order, memory.trans went, perm, sorted, cells.symm, closed⟩

-- Ten titles of one letter, in the order of neither the scores nor the letters.
def tenEntries : Arrays Int :=
  ⟨fun i => [UInt8.ofNat (97 + 7 * i % 10)], fun i => (3 * i % 4 : Nat)⟩

-- The right half sorts first, and the waits take the children the other way round.
theorem process_sort_any_order_ten : ∃ world : World Int (3 - startLayer 10),
    run (World.step 10 10) (.start (Shared.ofArrays tenEntries))
      [.here .left, .here .left, .right (.here .left), .left (.here .left), .right (.here .left),
        .left (.here .left), .here .left, .here .right, .here .left, .here .left] = some world ∧
    ∃ shared, ∃ order : List (Entry Int), world.memory = some shared ∧
      order.Perm (tenEntries.slice 0 10) ∧ order.Pairwise Before ∧
      shared.view.slice 0 10 = order.map decorate ∧ shared.Closed 0 10 := by
  obtain ⟨world, ran, back⟩ : ∃ world : World Int (3 - startLayer 10),
      run (World.step 10 10) (.start (Shared.ofArrays tenEntries))
        [.here .left, .here .left, .right (.here .left), .left (.here .left), .right (.here .left),
          .left (.here .left), .here .left, .here .right, .here .left, .here .left] = some world ∧
      world.original = .inMain := ⟨_, rfl, rfl⟩
  have proper : ∀ i < 10, Proper (tenEntries.cell i) := by
    intro i inside
    interval_cases i <;> exact ⟨by decide +kernel, by decide +kernel, by decide +kernel⟩
  exact ⟨world, ran, (process_sort_any_order 10 10 tenEntries (by decide) (by decide) proper _ world
    ran).2.2.2.2 back⟩

end

end SPHomework.MovieSort
