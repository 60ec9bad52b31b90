import Mathlib.Data.Set.Insert
import SPHomework.Lib.Network

set_option autoImplicit false

/-!
# Runs of a group of processes

What a group does leaves everything alone that its processes do not use, so
the runs of two groups can be put one after the other.
-/

namespace SPHomework.Lib

namespace Network

variable {P C M O L : Type}

section

variable (program : P → L → Action P C M O L)

def Uses (p : P) (channel : C) : Prop :=
  (∃ place message next, program p place = .send channel message next) ∨
    ∃ place next, program p place = .receive channel next

end

def Carries (network : Network P C M O L) (channel : C) (entries : List (P × M)) : Prop :=
  ∃ before, network.sent channel = before ++ entries ∧ network.taken channel = before.length

def Quiet (network after : Network P C M O L) (channel : C) : Prop :=
  after.sent channel = network.sent channel ∧ after.taken channel = network.taken channel

section

variable {network after : Network P C M O L}

theorem Carries.quiet {channel : C} {entries : List (P × M)} (carries : Carries network channel entries)
    (quiet : Quiet network after channel) : Carries after channel entries := by
  obtain ⟨before, sent, taken⟩ := carries
  exact ⟨before, quiet.1.trans sent, quiet.2.trans taken⟩

theorem Quiet.trans {middle : Network P C M O L} {channel : C} (first : Quiet network middle channel)
    (second : Quiet middle after channel) : Quiet network after channel :=
  ⟨second.1.trans first.1, second.2.trans first.2⟩

structure Wrote (network after : Network P C M O L) (p : P) (channel : C) (message : M) : Prop where
  sent : after.sent channel = network.sent channel ++ [(p, message)]
  taken : after.taken channel = network.taken channel
  others : ∀ other, other ≠ channel → Quiet network after other

theorem Wrote.carries {p : P} {channel : C} {message : M} {entries : List (P × M)}
    (wrote : Wrote network after p channel message) (carries : Carries network channel entries) :
    Carries after channel (entries ++ [(p, message)]) := by
  obtain ⟨before, sent, taken⟩ := carries
  exact ⟨before, by rw [wrote.sent, sent, List.append_assoc], wrote.taken.trans taken⟩

structure Read (network after : Network P C M O L) (channel : C) : Prop where
  sent : after.sent channel = network.sent channel
  taken : after.taken channel = network.taken channel + 1
  others : ∀ other, other ≠ channel → Quiet network after other

theorem Read.carries {channel : C} {entry : P × M} {entries : List (P × M)}
    (read : Read network after channel) (carries : Carries network channel (entry :: entries)) :
    Carries after channel entries := by
  obtain ⟨before, sent, taken⟩ := carries
  exact ⟨before ++ [entry], by rw [read.sent, sent, List.append_assoc]; rfl, by simp [read.taken, taken]⟩

end

variable [DecidableEq P] [DecidableEq C]

/-- A run in which only the processes of the group take steps. -/
def Within (program : P → L → Action P C M O L) (group : Set P) (network after : Network P C M O L) : Prop :=
  ∃ labels : List P, (∀ p ∈ labels, p ∈ group) ∧ run (step program) network labels = some after

variable {program : P → L → Action P C M O L} {group : Set P} {network middle after : Network P C M O L}

theorem Within.refl (group : Set P) (network : Network P C M O L) : Within program group network network :=
  ⟨[], by simp, rfl⟩

theorem Within.trans (first : Within program group network middle)
    (second : Within program group middle after) : Within program group network after := by
  obtain ⟨xs, inside, ran⟩ := first
  obtain ⟨ys, inside', ran'⟩ := second
  refine ⟨xs ++ ys, ?_, (run_append _ network after xs ys).mpr ⟨middle, ran, ran'⟩⟩
  intro p member
  rcases List.mem_append.mp member with here | there
  · exact inside p here
  · exact inside' p there

theorem Within.mono {larger : Set P} (part : group ⊆ larger) (ran : Within program group network after) :
    Within program larger network after := by
  obtain ⟨labels, inside, ran⟩ := ran
  exact ⟨labels, fun p member => part (inside p member), ran⟩

theorem Within.single {p : P} (member : p ∈ group) (taken : network.step program p = some after) :
    Within program group network after :=
  ⟨[p], by simpa using member, (run_cons _ network after p []).mpr ⟨after, taken, rfl⟩⟩

theorem Within.one {p : P} (taken : network.step program p = some after) :
    Within program {p} network after := Within.single (Set.mem_singleton p) taken

theorem Within.invariant (Inv : Network P C M O L → Prop)
    (kept : ∀ p ∈ group, ∀ now next, Inv now → now.step program p = some next → Inv next)
    (ran : Within program group network after) (start : Inv network) : Inv after := by
  obtain ⟨labels, inside, ran⟩ := ran
  induction labels generalizing network with
  | nil => exact Option.some.inj ran ▸ start
  | cons p rest ih =>
    obtain ⟨next, taken, continued⟩ := (run_cons _ network after p rest).mp ran
    have now := kept p (inside p List.mem_cons_self) network next start taken
    exact ih now (fun q member => inside q (List.mem_cons_of_mem p member)) continued

theorem Within.place (ran : Within program group network after) (q : P) (outside : q ∉ group) :
    after.place q = network.place q := by
  apply ran.invariant (fun now => now.place q = network.place q)
  · intro p member now next same taken
    have other : q ≠ p := by
      rintro rfl
      exact outside member
    rw [step_place taken q other, same]
  · rfl

theorem Within.halted (ran : Within program group network after) (q : P)
    (done : network.halted program q = true) : after.halted program q = true :=
  ran.invariant (fun now => now.halted program q = true) (fun _ _ _ _ now taken => halted_kept taken now) done

theorem step_quiet {p : P} {channel : C} (unused : ¬ Uses program p channel)
    (taken : network.step program p = some after) : Quiet network after channel := by
  obtain ⟨next, -, rfl⟩ := step_eq.mp taken
  cases doing : program p (network.place p) with
  | send c m l =>
    have different : channel ≠ c := by
      rintro rfl
      exact unused (.inl ⟨_, m, l, doing⟩)
    simp [Quiet, move, effect, different]
  | receive c k =>
    have different : channel ≠ c := by
      rintro rfl
      exact unused (.inr ⟨_, k, doing⟩)
    simp [Quiet, move, effect, different]
  | _ => exact ⟨rfl, rfl⟩

theorem Within.quiet {channel : C} (unused : ∀ p ∈ group, ¬ Uses program p channel)
    (ran : Within program group network after) : Quiet network after channel := by
  apply ran.invariant (fun now => Quiet network now channel)
  · intro p member now next quiet taken
    exact quiet.trans (step_quiet (unused p member) taken)
  · exact ⟨rfl, rfl⟩

theorem step_send {p : P} {channel : C} {message : M} {next : L}
    (doing : program p (network.place p) = .send channel message next) :
    ∃ after, network.step program p = some after ∧ after.place p = next ∧
      Wrote network after p channel message := by
  refine ⟨_, step_eq.mpr ⟨next, by rw [doing]; rfl, rfl⟩, by simp [move], ?_⟩
  rw [doing]
  constructor
  · simp [move, effect]
  · rfl
  · intro other different
    simp [Quiet, move, effect, different]

theorem step_receive {p : P} {channel : C} {next : M → L} {entry : P × M} {entries : List (P × M)}
    (doing : program p (network.place p) = .receive channel next)
    (carries : Carries network channel (entry :: entries)) :
    ∃ after, network.step program p = some after ∧ after.place p = next entry.2 ∧
      Read network after channel := by
  have found : (network.sent channel)[network.taken channel]? = some entry := by
    obtain ⟨before, sent, taken⟩ := carries
    rw [sent, taken, List.getElem?_append_right (Nat.le_refl _), Nat.sub_self]
    rfl
  refine ⟨_, step_eq.mpr ⟨next entry.2, by rw [doing, ready, found]; rfl, rfl⟩, by simp [move], ?_⟩
  rw [doing]
  constructor
  · rfl
  · simp [move, effect]
  · intro other different
    simp [Quiet, move, effect, different]

theorem step_join {p child : P} {next : L} (doing : program p (network.place p) = .join child next)
    (done : network.halted program child = true) :
    ∃ after, network.step program p = some after ∧ after.place p = next ∧
      ∀ channel, Quiet network after channel := by
  refine ⟨_, step_eq.mpr ⟨next, by rw [doing, ready, if_pos done], rfl⟩, by simp [move], ?_⟩
  rw [doing]
  exact fun channel => ⟨rfl, rfl⟩

theorem step_print {p : P} {text : O} {next : L}
    (doing : program p (network.place p) = .print text next) :
    ∃ after, network.step program p = some after ∧ after.place p = next ∧
      ∀ channel, Quiet network after channel := by
  refine ⟨_, step_eq.mpr ⟨next, by rw [doing]; rfl, rfl⟩, by simp [move], ?_⟩
  rw [doing]
  exact fun channel => ⟨rfl, rfl⟩

end Network

end SPHomework.Lib
