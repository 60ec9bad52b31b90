import Mathlib.Logic.Relation
import Mathlib.Tactic

set_option autoImplicit false

/-!
# Programs that make calls, run under interference

`Prog` is a program with a private memory that makes calls to a shared world.
Between two calls other parties may change the world, within `rely`. `Safe`
says that every call keeps within `guar`, that `seen` holds at every point
where others can look, and that `post` holds at the end. Of the part of the
world that no other party changes, `Rules` give the weakest precondition of
each call, and `Meets` that of a program.
-/

namespace SPHomework.Lib

inductive Prog (M C : Type) (A : C → Type) (α : Type) where
  | done (memory : M) (value : α)
  | halt (memory : M)
  | call (memory : M) (request : C) (next : A request → Prog M C A α)

namespace Prog

variable {M C : Type} {A : C → Type} {α β : Type}

def memory : Prog M C A α → M
  | .done memory _ => memory
  | .halt memory => memory
  | .call memory _ _ => memory

def bind (program : Prog M C A α) (rest : M → α → Prog M C A β) : Prog M C A β :=
  match program with
  | .done memory value => rest memory value
  | .halt memory => .halt memory
  | .call memory request next => .call memory request fun answer => (next answer).bind rest

@[simp] theorem bind_done (memory : M) (value : α) (rest : M → α → Prog M C A β) :
    (Prog.done memory value : Prog M C A α).bind rest = rest memory value := rfl

@[simp] theorem bind_halt (memory : M) (rest : M → α → Prog M C A β) :
    (Prog.halt memory : Prog M C A α).bind rest = .halt memory := rfl

@[simp] theorem bind_call (memory : M) (request : C) (next : A request → Prog M C A α)
    (rest : M → α → Prog M C A β) :
    (Prog.call memory request next).bind rest =
      .call memory request fun answer => (next answer).bind rest := rfl

-- How a program that is run on its own comes to its end.
inductive Ending (M α : Type) where
  | done (memory : M) (value : α)
  | halt (memory : M)

/-- A program run on its own: each call is executed at once, and no other party moves. -/
def perform {K : Type} (exec : K → (request : C) → Option (A request × K)) (world : K) :
    Prog M C A α → Option (K × Ending M α)
  | .done memory value => some (world, .done memory value)
  | .halt memory => some (world, .halt memory)
  | .call _ request next =>
    match exec world request with
    | none => none
    | some (answer, after) => (next answer).perform exec after

theorem perform_bind {K : Type} {exec : K → (request : C) → Option (A request × K)} {world after : K}
    {program : Prog M C A α} {memory : M} {value : α} (rest : M → α → Prog M C A β)
    (performed : program.perform exec world = some (after, .done memory value)) :
    (program.bind rest).perform exec world = (rest memory value).perform exec after := by
  induction program generalizing world with
  | done first result =>
    obtain ⟨rfl, rfl, rfl⟩ : world = after ∧ first = memory ∧ result = value := by
      simpa [perform] using performed
    rfl
  | halt first => simp [perform] at performed
  | call first request next ih =>
    simp only [bind_call, perform] at performed ⊢
    split at performed
    · exact absurd performed (by simp)
    · rename_i answer middle executed
      simpa [executed] using ih answer performed

theorem perform_halt {K : Type} {exec : K → (request : C) → Option (A request × K)} {world after : K}
    {program : Prog M C A α} {memory : M} (rest : M → α → Prog M C A β)
    (performed : program.perform exec world = some (after, .halt memory)) :
    (program.bind rest).perform exec world = some (after, .halt memory) := by
  induction program generalizing world with
  | done first result => simp [perform] at performed
  | halt first => simpa [perform] using performed
  | call first request next ih =>
    simp only [bind_call, perform] at performed ⊢
    split at performed
    · exact absurd performed (by simp)
    · rename_i answer middle executed
      simpa [executed] using ih answer performed

end Prog

-- Code that runs from a memory: the monad in which handlers are written.
def Code (M C : Type) (A : C → Type) (α : Type) : Type := M → Prog M C A α

namespace Code

variable {M C : Type} {A : C → Type} {α β : Type}

instance : Monad (Code M C A) where
  pure value := fun memory => .done memory value
  bind code rest := fun memory => (code memory).bind fun memory value => rest value memory

def get : Code M C A M := fun memory => .done memory memory

def modify (update : M → M) : Code M C A Unit := fun memory => .done (update memory) ()

def request (call : C) : Code M C A (A call) :=
  fun memory => .call memory call fun answer => .done memory answer

def halt : Code M C A α := fun memory => .halt memory

@[simp] theorem pure_run (value : α) (memory : M) :
    (pure value : Code M C A α) memory = .done memory value := rfl

@[simp] theorem bind_run (code : Code M C A α) (rest : α → Code M C A β) (memory : M) :
    (code >>= rest) memory = (code memory).bind fun memory value => rest value memory := rfl

@[simp] theorem get_run (memory : M) : (get : Code M C A M) memory = .done memory memory := rfl

@[simp] theorem modify_run (update : M → M) (memory : M) :
    (modify update : Code M C A Unit) memory = .done (update memory) () := rfl

@[simp] theorem request_run (call : C) (memory : M) :
    (request call : Code M C A (A call)) memory =
      .call memory call fun answer => .done memory answer := rfl

@[simp] theorem halt_run (memory : M) : (halt : Code M C A α) memory = .halt memory := rfl

end Code

/-- The world as one party sees it: what its calls do, what others may do meanwhile, what it
promises the others, and what they may observe of it. -/
structure Party (K M C : Type) (A : C → Type) where
  exec : K → (request : C) → A request → K → Prop
  rely : K → K → Prop
  guar : K → K → Prop
  seen : K → M → Prop
  rely_refl : ∀ world, rely world world
  rely_trans : ∀ first second third, rely first second → rely second third → rely first third

namespace Party

variable {K M C : Type} {A : C → Type} {α β : Type} (party : Party K M C A)

def Safe (post : K → M → α → Prop) : K → Prog M C A α → Prop
  | world, .done memory value =>
    ∀ later, party.rely world later → party.seen later memory ∧ post later memory value
  | world, .halt memory => ∀ later, party.rely world later → party.seen later memory
  | world, .call memory request next =>
    ∀ later, party.rely world later → party.seen later memory ∧
      ∀ answer after, party.exec later request answer after →
        party.guar later after ∧ Safe post after (next answer)

variable {party}

theorem Safe.stable {post : K → M → α → Prop} {world later : K} {program : Prog M C A α}
    (safe : party.Safe post world program) (moved : party.rely world later) :
    party.Safe post later program := by
  cases program <;>
    exact fun final further => safe final (party.rely_trans _ _ _ moved further)

theorem Safe.seen {post : K → M → α → Prop} {world : K} {program : Prog M C A α}
    (safe : party.Safe post world program) : party.seen world program.memory := by
  cases program with
  | done memory value => exact (safe world (party.rely_refl world)).1
  | halt memory => exact safe world (party.rely_refl world)
  | call memory request next => exact (safe world (party.rely_refl world)).1

theorem Safe.bind {middle : K → M → α → Prop} {post : K → M → β → Prop} {world : K}
    {program : Prog M C A α} {rest : M → α → Prog M C A β} (safe : party.Safe middle world program)
    (next : ∀ world memory value, middle world memory value →
      party.Safe post world (rest memory value)) :
    party.Safe post world (program.bind rest) := by
  induction program generalizing world with
  | done memory value =>
    exact next world memory value (safe world (party.rely_refl world)).2
  | halt memory => exact safe
  | call memory request continuation ih =>
    intro later moved
    obtain ⟨seen, steps⟩ := safe later moved
    exact ⟨seen, fun answer after executed =>
      ⟨(steps answer after executed).1, ih answer (steps answer after executed).2⟩⟩

theorem Safe.andThen {middle : K → M → α → Prop} {post : K → M → β → Prop} {world : K} {memory : M}
    {code : Code M C A α} {rest : α → Code M C A β} (safe : party.Safe middle world (code memory))
    (next : ∀ world memory value, middle world memory value →
      party.Safe post world (rest value memory)) :
    party.Safe post world ((code >>= rest) memory) :=
  safe.bind next

-- A call from a stable assertion: it is enough to treat the call where the assertion holds.
theorem Safe.call {post : K → M → α → Prop} {world : K} {memory : M} {request : C}
    {next : A request → Prog M C A α} (pre : K → Prop) (holds : pre world)
    (stable : ∀ world later, pre world → party.rely world later → pre later)
    (step : ∀ world, pre world → party.seen world memory ∧
      ∀ answer after, party.exec world request answer after →
        party.guar world after ∧ party.Safe post after (next answer)) :
    party.Safe post world (.call memory request next) :=
  fun later moved => step later (stable world later holds moved)

theorem Safe.done {post : K → M → α → Prop} {world : K} {memory : M} {value : α}
    (pre : K → Prop) (holds : pre world)
    (stable : ∀ world later, pre world → party.rely world later → pre later)
    (result : ∀ world, pre world → party.seen world memory ∧ post world memory value) :
    party.Safe post world (.done memory value) :=
  fun later moved => result later (stable world later holds moved)

end Party

-- For each call, what must hold of the world for it to be made and to come back with `next`.
structure Rules (W M C : Type) (A : C → Type) where
  wp : W → M → (request : C) → (A request → W → Prop) → Prop
  mono : ∀ world memory request (next later : A request → W → Prop),
    (∀ answer after, next answer after → later answer after) →
      wp world memory request next → wp world memory request later

namespace Rules

variable {W M C : Type} {A : C → Type} {α β : Type} {rules : Rules W M C A}

def Meets (rules : Rules W M C A) (post : W → M → α → Prop) : W → Prog M C A α → Prop
  | world, .done memory value => post world memory value
  | _, .halt _ => True
  | world, .call memory request next =>
    rules.wp world memory request fun answer after => rules.Meets post after (next answer)

theorem Meets.bind {middle : W → M → α → Prop} {post : W → M → β → Prop} {world : W}
    {program : Prog M C A α} {rest : M → α → Prog M C A β} (meets : rules.Meets middle world program)
    (next : ∀ world memory value, middle world memory value →
      rules.Meets post world (rest memory value)) :
    rules.Meets post world (program.bind rest) := by
  induction program generalizing world with
  | done memory value => exact next world memory value meets
  | halt memory => trivial
  | call memory request continuation ih =>
    exact rules.mono world memory request _ _ (fun answer after => ih answer) meets

theorem Meets.andThen {middle : W → M → α → Prop} {post : W → M → β → Prop} {world : W} {memory : M}
    {code : Code M C A α} {rest : α → Code M C A β} (meets : rules.Meets middle world (code memory))
    (next : ∀ world memory value, middle world memory value →
      rules.Meets post world (rest value memory)) :
    rules.Meets post world ((code >>= rest) memory) :=
  meets.bind next

end Rules

end SPHomework.Lib
