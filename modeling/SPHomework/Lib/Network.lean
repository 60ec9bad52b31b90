import Mathlib.Logic.Function.Basic
import SPHomework.Lib.Confluence

set_option autoImplicit false

/-!
# Networks of sequential processes

Each process does one thing at a time: it sends, receives, waits for another
process to halt, or prints. Channels are reliable and in order. If every channel
has one reader, and one writer or one message, then all runs end alike.
-/

namespace SPHomework.Lib

/-- What a process does next, and where it goes on. `wrong` is what the language leaves undefined. -/
inductive Action (P C M O L : Type) where
  | send (channel : C) (message : M) (next : L)
  | receive (channel : C) (next : M → L)
  | join (child : P) (next : L)
  | print (text : O) (next : L)
  | halt
  | wrong

/-- `sent` is all that was ever written to a channel, with the writers, and `taken` how much of it
was read. -/
@[ext]
structure Network (P C M O L : Type) where
  place : P → L
  sent : C → List (P × M)
  taken : C → Nat
  output : P → List O

variable {P C M O L : Type}

def Action.isHalt : Action P C M O L → Bool
  | .halt => true
  | _ => false

namespace Network

variable (program : P → L → Action P C M O L)

def halted (network : Network P C M O L) (p : P) : Bool := (program p (network.place p)).isHalt

def ready (network : Network P C M O L) : Action P C M O L → Option L
  | .send _ _ next => some next
  | .receive channel next =>
    (network.sent channel)[network.taken channel]?.map fun entry => next entry.2
  | .join child next => if network.halted program child then some next else none
  | .print _ next => some next
  | .halt => none
  | .wrong => none

def Sends (network : Network P C M O L) (p : P) (channel : C) : Prop :=
  ∃ message next, program p (network.place p) = .send channel message next

theorem Sends.not_halted {program : P → L → Action P C M O L} {network : Network P C M O L} {p : P} {channel : C}
    (sends : Sends program network p channel) : network.halted program p = false := by
  obtain ⟨message, next, doing⟩ := sends
  simp [halted, doing, Action.isHalt]

variable [DecidableEq P] [DecidableEq C]

def effect (network : Network P C M O L) (p : P) : Action P C M O L → Network P C M O L
  | .send channel message _ =>
    { network with sent := Function.update network.sent channel (network.sent channel ++ [(p, message)]) }
  | .receive channel _ =>
    { network with taken := Function.update network.taken channel (network.taken channel + 1) }
  | .print text _ => { network with output := Function.update network.output p (network.output p ++ [text]) }
  | .join _ _ => network
  | .halt => network
  | .wrong => network

def move (network : Network P C M O L) (p : P) (next : L) : Network P C M O L :=
  { network with place := Function.update network.place p next }

def step (network : Network P C M O L) (p : P) : Option (Network P C M O L) :=
  (network.ready program (program p (network.place p))).map fun next =>
    (network.effect p (program p (network.place p))).move p next

variable {program}

-- Another program for one process takes its next step alike.
theorem step_alike {program' : P → L → Action P C M O L} {network : Network P C M O L} {p : P}
    (halts : ∀ q, network.halted program' q = network.halted program q)
    (alike : program' p (network.place p) = program p (network.place p) ∨
      ∃ channel next next', program p (network.place p) = .receive channel next ∧
        program' p (network.place p) = .receive channel next' ∧
        ∀ entry ∈ network.sent channel, next' entry.2 = next entry.2) :
    network.step program' p = network.step program p := by
  rcases alike with same | ⟨channel, next, next', doing, doing', agree⟩
  · rw [step, step, same]
    congr 1
    cases program p (network.place p) <;> simp [ready, halts]
  · rw [step, step, doing, doing', ready, ready]
    cases found : (network.sent channel)[network.taken channel]? with
    | none => rfl
    | some entry =>
      have same := agree entry (List.mem_of_getElem? found)
      simp [same, effect]

theorem step_eq {network after : Network P C M O L} {p : P} :
    network.step program p = some after ↔
      ∃ next, network.ready program (program p (network.place p)) = some next ∧
        after = (network.effect p (program p (network.place p))).move p next := by
  rw [step, Option.map_eq_some_iff]
  constructor
  · rintro ⟨next, can, rfl⟩
    exact ⟨next, can, rfl⟩
  · rintro ⟨next, can, rfl⟩
    exact ⟨next, can, rfl⟩

theorem effect_place (network : Network P C M O L) (p : P) (action : Action P C M O L) :
    (network.effect p action).place = network.place := by
  cases action <;> rfl

theorem step_place {network after : Network P C M O L} {p : P}
    (taken : network.step program p = some after) (q : P) (other : q ≠ p) :
    after.place q = network.place q := by
  obtain ⟨next, -, rfl⟩ := step_eq.mp taken
  simp [move, effect_place, other]

theorem step_output {network after : Network P C M O L} {p : P}
    (taken : network.step program p = some after) (q : P) (other : q ≠ p) :
    after.output q = network.output q := by
  obtain ⟨next, -, rfl⟩ := step_eq.mp taken
  cases program p (network.place p) <;> simp [move, effect, other]

theorem halted_step {network after : Network P C M O L} {p : P}
    (taken : network.step program p = some after) : network.halted program p = false := by
  obtain ⟨next, can, -⟩ := step_eq.mp taken
  cases doing : program p (network.place p) with
  | halt => simp [doing, ready] at can
  | _ => simp [halted, doing, Action.isHalt]

theorem stuck_halted {network : Network P C M O L} {p : P} (done : network.halted program p = true) :
    network.step program p = none := by
  cases can : network.step program p with
  | none => rfl
  | some after => simp [halted_step can] at done

theorem halted_kept {network after : Network P C M O L} {p q : P}
    (taken : network.step program p = some after) (done : network.halted program q = true) :
    after.halted program q = true := by
  have other : q ≠ p := by
    rintro rfl
    simp [halted_step taken] at done
  rw [halted, step_place taken q other]
  exact done

def Clash : Action P C M O L → Action P C M O L → Prop
  | .send c _ _, .send c' _ _ => c = c'
  | .receive c _, .receive c' _ => c = c'
  | _, _ => False

theorem ready_kept {network after : Network P C M O L} {p : P} {action : Action P C M O L} {next : L}
    (taken : network.step program p = some after)
    (apart : ¬ Clash (program p (network.place p)) action)
    (can : network.ready program action = some next) : after.ready program action = some next := by
  cases action with
  | send c m l => exact can
  | print text l => exact can
  | halt => exact can
  | wrong => exact can
  | join child l =>
    simp only [ready] at can ⊢
    split_ifs at can with done
    rw [if_pos (halted_kept taken done)]
    exact can
  | receive c continue' =>
    obtain ⟨went, -, rfl⟩ := step_eq.mp taken
    simp only [ready, Option.map_eq_some_iff, move] at can ⊢
    obtain ⟨entry, found, rfl⟩ := can
    refine ⟨entry, ?_, rfl⟩
    cases doing : program p (network.place p) with
    | send c' m l =>
      -- a message that is there to be read stays so when more are written
      by_cases same : c = c'
      · subst same
        have inside := List.getElem?_eq_some_iff.mp found
        simpa [effect, List.getElem?_append_left inside.1] using found
      · simpa [effect, same] using found
    | receive c' l =>
      have different : c ≠ c' := by
        rintro rfl
        simp [doing, Clash] at apart
      simpa [effect, different] using found
    | join child l => simpa [effect] using found
    | print text l => simpa [effect] using found
    | halt => simpa [effect] using found
    | wrong => simpa [effect] using found

theorem effect_comm (network : Network P C M O L) {p q : P} (different : p ≠ q)
    {one other : Action P C M O L} (apart : ¬ Clash one other) (next next' : L) :
    (((network.effect p one).move p next).effect q other).move q next' =
      (((network.effect q other).move q next').effect p one).move p next := by
  cases one <;> cases other <;>
    simp only [effect, move, Clash] at apart ⊢ <;>
    ext1 <;> simp [Function.update_comm, different, different.symm, apart, Ne.symm, Function.update_of_ne]

theorem commutes_apart {network : Network P C M O L}
    (apart : ∀ p q, p ≠ q → ¬ Clash (program p (network.place p)) (program q (network.place q))) :
    Commutes (step program) network := by
  intro p q different one other taken taken'
  obtain ⟨next, can, moved⟩ := step_eq.mp taken
  obtain ⟨next', can', moved'⟩ := step_eq.mp taken'
  have stay : one.place q = network.place q := step_place taken q (Ne.symm different)
  have stay' : other.place p = network.place p := step_place taken' p different
  have ready : one.ready program (program q (one.place q)) = some next' := by
    rw [stay]
    exact ready_kept taken (apart p q different) can'
  have ready' : other.ready program (program p (other.place p)) = some next := by
    rw [stay']
    exact ready_kept taken' (apart q p (Ne.symm different)) can
  refine ⟨(one.effect q (program q (network.place q))).move q next', ?_, ?_⟩
  · rw [step_eq]
    exact ⟨next', ready, by rw [stay]⟩
  · rw [step_eq]
    refine ⟨next, ready', ?_⟩
    rw [stay', moved, moved']
    exact effect_comm network different (apart p q different) next next'

theorem Sends.kept {network after : Network P C M O L} {p q : P} {channel : C}
    (sends : Sends program network p channel) (taken : network.step program q = some after)
    (other : p ≠ q) : Sends program after p channel := by
  unfold Sends
  rw [step_place taken p other]
  exact sends

theorem Sends.sent {network after : Network P C M O L} {p : P} {channel : C}
    (sends : Sends program network p channel) (taken : network.step program p = some after) :
    (after.sent channel).length = (network.sent channel).length + 1 := by
  obtain ⟨message, next, doing⟩ := sends
  obtain ⟨-, -, rfl⟩ := step_eq.mp taken
  simp [move, effect, doing]

theorem sent_grows {network after : Network P C M O L} {p : P} (channel : C)
    (taken : network.step program p = some after) :
    (network.sent channel).length ≤ (after.sent channel).length := by
  obtain ⟨-, -, rfl⟩ := step_eq.mp taken
  cases doing : program p (network.place p) with
  | send c m l =>
    by_cases same : channel = c
    · subst same
      simp [move, effect]
    · simp [move, effect, same]
  | _ => exact Nat.le_refl _

theorem run_grows {network final : Network P C M O L} {labels : List P} (channel : C)
    (ran : run (step program) network labels = some final) :
    (network.sent channel).length ≤ (final.sent channel).length :=
  run_invariant (step program) (fun now => (network.sent channel).length ≤ (now.sent channel).length)
    (fun _ _ _ before taken => Nat.le_trans before (sent_grows channel taken)) network final labels
    (Nat.le_refl _) ran

section

variable {final : Network P C M O L} (done : ∀ p, final.halted program p = true)

include done

theorem sends_once {network : Network P C M O L} {labels : List P} {channel : C} {p : P}
    (ran : run (step program) network labels = some final) (sends : Sends program network p channel) :
    (network.sent channel).length + 1 ≤ (final.sent channel).length := by
  induction labels generalizing network with
  | nil =>
    obtain rfl : network = final := Option.some.inj ran
    have halted := done p
    rw [sends.not_halted] at halted
    cases halted
  | cons q rest ih =>
    obtain ⟨next, taken, continued⟩ := (run_cons _ network final q rest).mp ran
    by_cases same : p = q
    · subst same
      rw [← sends.sent taken]
      exact run_grows channel continued
    · have later := ih continued (sends.kept taken same)
      have grown := sent_grows channel taken
      omega

theorem sends_twice {network : Network P C M O L} {labels : List P} {channel : C} {p q : P}
    (ran : run (step program) network labels = some final) (different : p ≠ q)
    (sends : Sends program network p channel) (sends' : Sends program network q channel) :
    (network.sent channel).length + 2 ≤ (final.sent channel).length := by
  induction labels generalizing network with
  | nil =>
    obtain rfl : network = final := Option.some.inj ran
    have halted := done p
    rw [sends.not_halted] at halted
    cases halted
  | cons x rest ih =>
    obtain ⟨next, taken, continued⟩ := (run_cons _ network final x rest).mp ran
    have grown := sent_grows channel taken
    -- whichever writes first, the other has its write still to come
    by_cases one : p = x
    · subst one
      have written := sends.sent taken
      have later := sends_once done continued (sends'.kept taken (Ne.symm different))
      omega
    · by_cases other : q = x
      · subst other
        have written := sends'.sent taken
        have later := sends_once done continued (sends.kept taken different)
        omega
      · have later := ih continued (sends.kept taken one) (sends'.kept taken other)
        omega

end

-- A process that goes wrong stays there, so nobody does on the way to a complete end.
theorem never_wrong {network final : Network P C M O L} {labels : List P} {p : P}
    (done : final.halted program p = true) (ran : run (step program) network labels = some final) :
    program p (network.place p) ≠ .wrong := by
  intro wrong
  have stays : final.place p = network.place p := by
    apply run_invariant (step program) (fun now => now.place p = network.place p) _ network final labels rfl ran
    intro now q next same taken
    have other : p ≠ q := by
      rintro rfl
      obtain ⟨l, can, -⟩ := step_eq.mp taken
      rw [same, wrong] at can
      cases can
    exact (step_place taken p other).trans same
  rw [halted, stays, wrong] at done
  cases done

/-- Every channel has one reader. It has one writer too, unless it is shared. -/
structure Wired (program : P → L → Action P C M O L) (shared : C → Prop) : Prop where
  reader : ∀ {p q place place' channel next next'}, program p place = .receive channel next →
    program q place' = .receive channel next' → p = q
  writer : ∀ {p q place place' channel message message' next next'}, ¬ shared channel →
    program p place = .send channel message next →
    program q place' = .send channel message' next' → p = q

-- A shared channel is no harm if a complete run writes to it once at most.
theorem Wired.commutes {shared : C → Prop} (wired : Wired program shared) {final : Network P C M O L}
    (done : ∀ p, final.halted program p = true)
    (single : ∀ channel, shared channel → (final.sent channel).length ≤ 1)
    (network : Network P C M O L) (labels : List P)
    (ran : run (step program) network labels = some final) : Commutes (step program) network := by
  apply commutes_apart
  intro p q different clash
  cases doing : program p (network.place p) with
  | send c m l =>
    cases doing' : program q (network.place q) with
    | send c' m' l' =>
      obtain rfl : c = c' := by simpa [doing, doing', Clash] using clash
      -- two writers of a shared channel would write to it twice
      by_cases common : shared c
      · have written := sends_twice done ran different ⟨m, l, doing⟩ ⟨m', l', doing'⟩
        have few := single c common
        omega
      · exact different (wired.writer common doing doing')
    | _ => simp [doing, doing', Clash] at clash
  | receive c k =>
    cases doing' : program q (network.place q) with
    | receive c' k' =>
      obtain rfl : c = c' := by simpa [doing, doing', Clash] using clash
      exact different (wired.reader doing doing')
    | _ => simp [doing, doing', Clash] at clash
  | _ => simp [doing, Clash] at clash

/-- From wherever a run has got to, what is left of the complete run can be done. -/
theorem Wired.complete {shared : C → Prop} (wired : Wired program shared)
    {start final reached : Network P C M O L} {labels taken : List P}
    (done : ∀ p, final.halted program p = true)
    (single : ∀ channel, shared channel → (final.sent channel).length ≤ 1)
    (ran : run (step program) start labels = some final)
    (went : run (step program) start taken = some reached) :
    ∃ rest, run (step program) reached rest = some final ∧ (taken ++ rest).Perm labels :=
  run_complete (fun p => stuck_halted (done p)) (wired.commutes done single) ran went

end Network

end SPHomework.Lib
