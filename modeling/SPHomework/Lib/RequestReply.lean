import SPHomework.Lib.Network

set_option autoImplicit false

/-!
# Request and reply

A child asks over one channel and waits for the answer on another. If the child
asks only when it does not wait, and the parent answers only what it has taken,
then one message is on the way at most, and the two take turns.
-/

namespace SPHomework.Lib

variable {P C M O L : Type}

def Action.Leads : Action P C M O L → L → Prop
  | .send _ _ next, place => place = next
  | .receive _ next, place => ∃ message, place = next message
  | .join _ next, place => place = next
  | .print _ next, place => place = next
  | .halt, _ => False
  | .wrong, _ => False

-- The action has nothing to do with the channel.
def Action.Spares (action : Action P C M O L) (channel : C) : Prop :=
  (∀ message next, action ≠ .send channel message next) ∧ ∀ next, action ≠ .receive channel next

def Alternates (one other : C) : List C → Prop
  | [] => True
  | channel :: rest => channel = one ∧ Alternates other one rest

/-- `waiting` is about the places of the child, `owes` about those of the parent. -/
structure Link (program : P → L → Action P C M O L) (up down : C) (child parent : P)
    (waiting owes : L → Bool) : Prop where
  apart : up ≠ down
  distinct : child ≠ parent
  asks : ∀ {p place message next}, program p place = .send up message next →
    p = child ∧ waiting place = false ∧ waiting next = true
  hears : ∀ {p place next}, program p place = .receive down next →
    p = child ∧ waiting place = true ∧ ∀ message, waiting (next message) = false
  takes : ∀ {p place next}, program p place = .receive up next →
    p = parent ∧ owes place = false ∧ ∀ message, owes (next message) = true
  answers : ∀ {p place message next}, program p place = .send down message next →
    p = parent ∧ owes place = true ∧ owes next = false
  childKeeps : ∀ {place next}, (program child place).Leads next → (program child place).Spares up →
    (program child place).Spares down → waiting next = waiting place
  parentKeeps : ∀ {place next}, (program parent place).Leads next → (program parent place).Spares up →
    (program parent place).Spares down → owes next = owes place

/-- A `Stop` is the last message that the child takes. -/
structure Stops (program : P → L → Action P C M O L) (up down : C) (child : P) (waiting : L → Bool)
    (Stop : M → Prop) (done : L → Prop) : Prop where
  enters : ∀ {place next message}, program child place = .receive down next → Stop message →
    done (next message)
  stays : ∀ {place next}, done place → (program child place).Leads next → done next
  idle : ∀ {place}, done place → waiting place = false
  silent : ∀ {place message next}, done place → program child place ≠ .send up message next

/-- The other program differs only in what it makes of the messages that it reads. -/
def Alike (program program' : P → L → Action P C M O L) (Same : L → L → Prop) : Prop :=
  ∀ p place, program' p place = program p place ∨
    ∃ channel next next', program p place = .receive channel next ∧ program' p place = .receive channel next' ∧
      ∀ message, Same (next message) (next' message)

section

variable {program program' : P → L → Action P C M O L} {Same : L → L → Prop} {p : P} {place : L}

theorem Alike.sends (alike : Alike program program' Same) {channel : C} {message : M} {next : L}
    (doing : program' p place = .send channel message next) : program p place = .send channel message next := by
  rcases alike p place with same | ⟨channel', next', next'', -, doing', -⟩
  · exact same ▸ doing
  · rw [doing'] at doing
    cases doing

theorem Alike.receives (reflexive : ∀ place, Same place place) (alike : Alike program program' Same) {channel : C}
    {next' : M → L} (doing : program' p place = .receive channel next') :
    ∃ next, program p place = .receive channel next ∧ ∀ message, Same (next message) (next' message) := by
  rcases alike p place with same | ⟨channel', next, next'', before, doing', related⟩
  · exact ⟨next', same ▸ doing, fun message => reflexive _⟩
  · obtain ⟨rfl, rfl⟩ := Action.receive.inj (doing'.symm.trans doing)
    exact ⟨next, before, related⟩

theorem Alike.leads (reflexive : ∀ place, Same place place) (alike : Alike program program' Same) {next' : L}
    (leads : (program' p place).Leads next') : ∃ next, (program p place).Leads next ∧ Same next next' := by
  rcases alike p place with same | ⟨channel, next, next'', before, doing', related⟩
  · exact ⟨next', same ▸ leads, reflexive next'⟩
  · rw [doing'] at leads
    obtain ⟨message, rfl⟩ := leads
    exact ⟨next message, by rw [before]; exact ⟨message, rfl⟩, related message⟩

theorem Alike.spares (alike : Alike program program' Same) {channel : C} (spares : (program' p place).Spares channel) :
    (program p place).Spares channel := by
  rcases alike p place with same | ⟨channel', next, next', before, doing', -⟩
  · exact same ▸ spares
  · rw [before]
    refine ⟨by simp, fun next'' doing => spares.2 next' ?_⟩
    rw [doing', (Action.receive.inj doing).1]

theorem Link.alike {up down : C} {child parent : P} {waiting owes : L → Bool}
    (link : Link program up down child parent waiting owes) (reflexive : ∀ place, Same place place)
    (alike : Alike program program' Same) (waits : ∀ {here there}, Same here there → waiting there = waiting here)
    (owed : ∀ {here there}, Same here there → owes there = owes here) :
    Link program' up down child parent waiting owes where
  apart := link.apart
  distinct := link.distinct
  asks doing := link.asks (alike.sends doing)
  hears doing := by
    obtain ⟨next, before, related⟩ := alike.receives reflexive doing
    obtain ⟨own, waited, rest⟩ := link.hears before
    exact ⟨own, waited, fun message => (waits (related message)).trans (rest message)⟩
  takes doing := by
    obtain ⟨next, before, related⟩ := alike.receives reflexive doing
    obtain ⟨own, free, then_⟩ := link.takes before
    exact ⟨own, free, fun message => (owed (related message)).trans (then_ message)⟩
  answers doing := link.answers (alike.sends doing)
  childKeeps leads spares spares' := by
    obtain ⟨next, leads', related⟩ := alike.leads reflexive leads
    exact (waits related).trans (link.childKeeps leads' (alike.spares spares) (alike.spares spares'))
  parentKeeps leads spares spares' := by
    obtain ⟨next, leads', related⟩ := alike.leads reflexive leads
    exact (owed related).trans (link.parentKeeps leads' (alike.spares spares) (alike.spares spares'))

theorem Stops.alike {up down : C} {child : P} {waiting : L → Bool} {Stop : M → Prop} {done : L → Prop}
    (stops : Stops program up down child waiting Stop done) (reflexive : ∀ place, Same place place)
    (alike : Alike program program' Same) (kept : ∀ {here there}, Same here there → done here → done there) :
    Stops program' up down child waiting Stop done where
  enters doing stop := by
    obtain ⟨next, before, related⟩ := alike.receives reflexive doing
    exact kept (related _) (stops.enters before stop)
  stays ends leads := by
    obtain ⟨next, leads', related⟩ := alike.leads reflexive leads
    exact kept related (stops.stays ends leads')
  idle := stops.idle
  silent ends doing := stops.silent ends (alike.sends doing)

end

namespace Network

section

variable (program : P → L → Action P C M O L)

def write (network : Network P C M O L) (p : P) : Option (C × M) :=
  match program p (network.place p) with
  | .send channel message _ => some (channel, message)
  | _ => none

variable [DecidableEq P] [DecidableEq C]

/-- All that is written in a run, in its order. -/
def writes : Network P C M O L → List P → List (C × M)
  | _, [] => []
  | network, p :: rest =>
    match network.step program p with
    | none => []
    | some next => (network.write program p).toList ++ writes next rest

def inFlight (network : Network P C M O L) (channel : C) : List (P × M) :=
  (network.sent channel).drop (network.taken channel)

-- What is written to the two channels of a link.
def traffic (network : Network P C M O L) (up down : C) (labels : List P) : List (C × M) :=
  (network.writes program labels).filter fun entry => entry.1 = up ∨ entry.1 = down

end

section

variable {program : P → L → Action P C M O L}

theorem ready_leads {network : Network P C M O L} {action : Action P C M O L} {next : L}
    (can : network.ready program action = some next) : action.Leads next := by
  cases action with
  | send c m l => exact (Option.some.inj can).symm
  | receive c l =>
    obtain ⟨entry, -, rfl⟩ := Option.map_eq_some_iff.mp can
    exact ⟨entry.2, rfl⟩
  | join q l =>
    simp only [ready] at can
    split_ifs at can
    exact (Option.some.inj can).symm
  | print o l => exact (Option.some.inj can).symm
  | halt => cases can
  | wrong => cases can

end

variable [DecidableEq P] [DecidableEq C] {program : P → L → Action P C M O L}

theorem step_leads {now after : Network P C M O L} {p : P} (stepped : now.step program p = some after) :
    (program p (now.place p)).Leads (after.place p) := by
  obtain ⟨next, can, rfl⟩ := step_eq.mp stepped
  simpa [move] using ready_leads can

/-- What a step by a process is, seen from one channel. -/
inductive Touch (program : P → L → Action P C M O L) (channel : C) (now after : Network P C M O L) (p : P) : Prop where
  | sends (message : M) (doing : program p (now.place p) = .send channel message (after.place p))
    (sent : after.sent channel = now.sent channel ++ [(p, message)])
    (taken : after.taken channel = now.taken channel)
  | receives (next : M → L) (message : P × M) (doing : program p (now.place p) = .receive channel next)
    (found : (now.sent channel)[now.taken channel]? = some message) (place : after.place p = next message.2)
    (sent : after.sent channel = now.sent channel)
    (taken : after.taken channel = now.taken channel + 1)
  | spares (spares : (program p (now.place p)).Spares channel)
    (sent : after.sent channel = now.sent channel) (taken : after.taken channel = now.taken channel)

theorem step_touch {now after : Network P C M O L} {p : P} (channel : C)
    (stepped : now.step program p = some after) : Touch program channel now after p := by
  obtain ⟨next, can, rfl⟩ := step_eq.mp stepped
  have place : ((now.effect p (program p (now.place p))).move p next).place p = next := by simp [move]
  cases doing : program p (now.place p) with
  | send c m l =>
    rw [doing] at can place
    obtain rfl := Option.some.inj can
    by_cases same : c = channel
    · subst same
      exact .sends m (by rw [doing, place]) (by simp [move, effect]) (by simp [move, effect])
    · refine .spares (by rw [doing]; simp [Action.Spares, same]) ?_ ?_ <;>
        simp [move, effect, Ne.symm same]
  | receive c l =>
    rw [doing] at can place
    obtain ⟨entry, found, rfl⟩ := Option.map_eq_some_iff.mp can
    by_cases same : c = channel
    · subst same
      exact .receives l entry doing found place (by simp [move, effect]) (by simp [move, effect])
    · refine .spares (by rw [doing]; simp [Action.Spares, same]) ?_ ?_ <;>
        simp [move, effect, Ne.symm same]
  | join q l => exact .spares (by rw [doing]; simp [Action.Spares]) rfl rfl
  | print o l => exact .spares (by rw [doing]; simp [Action.Spares]) rfl rfl
  | halt => exact .spares (by rw [doing]; simp [Action.Spares]) rfl rfl
  | wrong => exact .spares (by rw [doing]; simp [Action.Spares]) rfl rfl

omit [DecidableEq P] [DecidableEq C] in
theorem write_some {now : Network P C M O L} {p : P} {channel : C} {message : M} :
    now.write program p = some (channel, message) ↔
      ∃ next, program p (now.place p) = .send channel message next := by
  cases doing : program p (now.place p) <;> simp [write, doing]

-- Nothing is taken that was not sent.
def Sound (now : Network P C M O L) : Prop := ∀ channel, now.taken channel ≤ (now.sent channel).length

theorem Sound.step {now after : Network P C M O L} {p : P} (sound : Sound now)
    (stepped : now.step program p = some after) : Sound after := by
  intro channel
  have before := sound channel
  cases step_touch channel stepped with
  | sends message doing sent taken =>
    rw [sent, taken, List.length_append]
    omega
  | receives next message doing found place sent taken =>
    have inside := (List.getElem?_eq_some_iff.mp found).1
    rw [sent, taken]
    omega
  | spares spares sent taken =>
    rw [sent, taken]
    exact before

end Network

open Network

variable [DecidableEq P] [DecidableEq C] {program : P → L → Action P C M O L} {up down : C}
  {child parent : P} {waiting owes : L → Bool} {now after final : Network P C M O L}

/-- The child has sent one message more than it got answers exactly when it waits, and the parent has
taken one more than it answered exactly when it owes an answer. -/
structure Paced (up down : C) (child parent : P) (waiting owes : L → Bool)
    (now : Network P C M O L) : Prop where
  asked : (now.sent up).length = now.taken down + (waiting (now.place child)).toNat
  answered : now.taken up = (now.sent down).length + (owes (now.place parent)).toNat
  sound : Sound now

/-- What a step by a process is, seen from the link. -/
inductive Move (program : P → L → Action P C M O L) (up down : C) (child parent : P)
    (waiting owes : L → Bool) (now after : Network P C M O L) (p : P) : Prop where
  | asks (message : M) (own : p = child) (writes : now.write program p = some (up, message))
    (sent : after.sent up = now.sent up ++ [(p, message)] ∧ after.sent down = now.sent down)
    (taken : after.taken up = now.taken up ∧ after.taken down = now.taken down)
    (waits : waiting (now.place child) = false ∧ waiting (after.place child) = true)
    (stays : after.place parent = now.place parent)
  | takes (own : p = parent) (writes : now.write program p = none)
    (sent : after.sent up = now.sent up ∧ after.sent down = now.sent down)
    (taken : after.taken up = now.taken up + 1 ∧ after.taken down = now.taken down)
    (owed : owes (now.place parent) = false ∧ owes (after.place parent) = true)
    (stays : after.place child = now.place child)
  | answers (message : M) (own : p = parent) (writes : now.write program p = some (down, message))
    (sent : after.sent up = now.sent up ∧ after.sent down = now.sent down ++ [(p, message)])
    (taken : after.taken up = now.taken up ∧ after.taken down = now.taken down)
    (owed : owes (now.place parent) = true ∧ owes (after.place parent) = false)
    (stays : after.place child = now.place child)
  | hears (message : P × M) (next : M → L) (own : p = child) (writes : now.write program p = none)
    (doing : program child (now.place child) = .receive down next)
    (found : (now.sent down)[now.taken down]? = some message) (place : after.place child = next message.2)
    (sent : after.sent up = now.sent up ∧ after.sent down = now.sent down)
    (taken : after.taken up = now.taken up ∧ after.taken down = now.taken down + 1)
    (waits : waiting (now.place child) = true ∧ waiting (after.place child) = false)
    (stays : after.place parent = now.place parent)
  | other (writes : ∀ entry, now.write program p = some entry → entry.1 ≠ up ∧ entry.1 ≠ down)
    (sent : after.sent up = now.sent up ∧ after.sent down = now.sent down)
    (taken : after.taken up = now.taken up ∧ after.taken down = now.taken down)
    (waits : waiting (after.place child) = waiting (now.place child))
    (owed : owes (after.place parent) = owes (now.place parent))

namespace Link

theorem move (link : Link program up down child parent waiting owes) {p : P}
    (stepped : now.step program p = some after) :
    Move program up down child parent waiting owes now after p := by
  have leads := step_leads stepped
  have stays := fun q different => step_place stepped q different
  have apart := link.apart
  have distinct := link.distinct
  cases step_touch up stepped with
  | sends message doing sent taken =>
    obtain ⟨rfl, before, later⟩ := link.asks doing
    cases step_touch down stepped with
    | sends message' doing' => grind
    | receives next' message' doing' => grind
    | spares spares' sent' taken' =>
      exact .asks message rfl (by simp [write, doing]) ⟨sent, sent'⟩ ⟨taken, taken'⟩ ⟨before, later⟩
        (stays _ distinct.symm)
  | receives next message doing found place sent taken =>
    obtain ⟨rfl, before, later⟩ := link.takes doing
    cases step_touch down stepped with
    | sends message' doing' => grind
    | receives next' message' doing' => grind
    | spares spares' sent' taken' =>
      exact .takes rfl (by simp [write, doing]) ⟨sent, sent'⟩ ⟨taken, taken'⟩ ⟨before, place ▸ later _⟩
        (stays _ distinct)
  | spares spares sent taken =>
    cases step_touch down stepped with
    | sends message' doing' sent' taken' =>
      obtain ⟨rfl, before, later⟩ := link.answers doing'
      exact .answers message' rfl (by simp [write, doing']) ⟨sent, sent'⟩ ⟨taken, taken'⟩ ⟨before, later⟩
        (stays _ distinct)
    | receives next' message' doing' found' place' sent' taken' =>
      obtain ⟨rfl, before, later⟩ := link.hears doing'
      exact .hears message' next' rfl (by simp [write, doing']) doing' found' place' ⟨sent, sent'⟩
        ⟨taken, taken'⟩ ⟨before, place' ▸ later _⟩ (stays _ distinct.symm)
    | spares spares' sent' taken' =>
      refine .other ?_ ⟨sent, sent'⟩ ⟨taken, taken'⟩ ?_ ?_
      · intro entry wrote
        cases doing : program p (now.place p) with
        | send c m l =>
          simp only [write, doing, Option.some.injEq] at wrote
          subst wrote
          refine ⟨?_, ?_⟩
          · rintro rfl
            exact spares.1 m l doing
          · rintro rfl
            exact spares'.1 m l doing
        | _ => simp [write, doing] at wrote
      · by_cases own : child = p
        · subst own
          exact link.childKeeps leads spares spares'
        · rw [stays child own]
      · by_cases own : parent = p
        · subst own
          exact link.parentKeeps leads spares spares'
        · rw [stays parent own]

theorem step (link : Link program up down child parent waiting owes) {p : P}
    (paced : Paced up down child parent waiting owes now)
    (stepped : now.step program p = some after) : Paced up down child parent waiting owes after := by
  obtain ⟨asked, answered, sound⟩ := paced
  have sound := sound.step stepped
  cases link.move stepped with
  | asks message own writes sent taken waits stays =>
    rw [waits.1] at asked
    refine ⟨?_, ?_, sound⟩
    · rw [sent.1, taken.2, waits.2, List.length_append, asked]
      rfl
    · rw [taken.1, sent.2, stays, answered]
  | takes own writes sent taken owed stays =>
    rw [owed.1] at answered
    refine ⟨?_, ?_, sound⟩
    · rw [sent.1, taken.2, stays, asked]
    · rw [taken.1, sent.2, owed.2, answered]
      rfl
  | answers message own writes sent taken owed stays =>
    rw [owed.1] at answered
    refine ⟨?_, ?_, sound⟩
    · rw [sent.1, taken.2, stays, asked]
    · rw [taken.1, sent.2, owed.2, List.length_append, answered]
      rfl
  | hears message next own writes doing found place sent taken waits stays =>
    rw [waits.1] at asked
    refine ⟨?_, ?_, sound⟩
    · rw [sent.1, taken.2, waits.2, asked]
      rfl
    · rw [taken.1, sent.2, stays, answered]
  | other writes sent taken waits owed =>
    refine ⟨?_, ?_, sound⟩
    · rw [sent.1, taken.2, waits, asked]
    · rw [taken.1, sent.2, owed, answered]

theorem run (link : Link program up down child parent waiting owes) {labels : List P}
    (paced : Paced up down child parent waiting owes now)
    (ran : Lib.run (Network.step program) now labels = some final) :
    Paced up down child parent waiting owes final :=
  run_invariant _ (Paced up down child parent waiting owes)
    (fun _ _ _ before stepped => link.step before stepped) now final labels paced ran

end Link

omit [DecidableEq P] [DecidableEq C] in
theorem Paced.single (paced : Paced up down child parent waiting owes now) :
    (now.inFlight up).length + (now.inFlight down).length ≤ 1 := by
  obtain ⟨asked, answered, sound⟩ := paced
  have upward := sound up
  have downward := sound down
  have one := Bool.toNat_le (waiting (now.place child))
  simp only [inFlight, List.length_drop]
  omega

theorem traffic_cons {p : P} {labels : List P} (stepped : now.step program p = some after) :
    now.traffic program up down (p :: labels) =
      ((now.write program p).toList.filter fun entry => entry.1 = up ∨ entry.1 = down) ++
        after.traffic program up down labels := by
  simp [traffic, writes, stepped]

omit [DecidableEq P] in
theorem writes_elsewhere {p : P}
    (elsewhere : ∀ entry, now.write program p = some entry → entry.1 ≠ up ∧ entry.1 ≠ down) :
    ((now.write program p).toList.filter fun entry => entry.1 = up ∨ entry.1 = down) = [] := by
  rw [List.filter_eq_nil_iff]
  intro entry member
  simpa using elsewhere entry (Option.mem_toList.mp member)

/-- Child and parent take turns from wherever the link is. -/
theorem Link.alternates (link : Link program up down child parent waiting owes) {labels : List P}
    (paced : Paced up down child parent waiting owes now)
    (ran : Lib.run (Network.step program) now labels = some final) :
    ((now.sent up).length = (now.sent down).length →
      Alternates up down ((now.traffic program up down labels).map Prod.fst)) ∧
    ((now.sent up).length ≠ (now.sent down).length →
      Alternates down up ((now.traffic program up down labels).map Prod.fst)) := by
  induction labels generalizing now with
  | nil => simp [traffic, writes, Alternates]
  | cons p labels ih =>
    obtain ⟨next, stepped, continued⟩ := (run_cons _ now final p labels).mp ran
    obtain ⟨even, odd⟩ := ih (link.step paced stepped) continued
    obtain ⟨asked, answered, sound⟩ := paced
    have upward := sound up
    have downward := sound down
    rw [traffic_cons stepped]
    cases link.move stepped with
    | asks message own writes sent taken waits stays =>
      -- the child does not wait, so all its messages were answered
      rw [waits.1, Bool.toNat_false] at asked
      rw [sent.1, sent.2, List.length_append, List.length_singleton] at odd
      refine ⟨fun _ => ?_, fun apart => absurd ?_ apart⟩
      · simpa [writes, Alternates] using odd (by omega)
      · omega
    | answers message own writes sent taken owed stays =>
      rw [owed.1, Bool.toNat_true] at answered
      have one := Bool.toNat_le (waiting (now.place child))
      rw [sent.1, sent.2, List.length_append, List.length_singleton] at even
      refine ⟨fun same => ?_, fun _ => ?_⟩
      · omega
      · simpa [writes, Alternates] using even (by omega)
    | takes own writes sent taken owed stays =>
      rw [sent.1, sent.2] at even odd
      simpa [writes] using ⟨even, odd⟩
    | hears message next own writes doing found place sent taken waits stays =>
      rw [sent.1, sent.2] at even odd
      simpa [writes] using ⟨even, odd⟩
    | other writes sent taken waits owed =>
      rw [sent.1, sent.2] at even odd
      rw [writes_elsewhere writes, List.nil_append]
      exact ⟨even, odd⟩

section

variable {Stop : M → Prop} {done : L → Prop}

/-- The last answer was to stop. When the child has it, it is done. -/
structure Stopped (up down : C) (child : P) (Stop : M → Prop) (done : L → Prop)
    (now : Network P C M O L) : Prop where
  last : ∃ entry, (now.sent down).getLast? = some entry ∧ Stop entry.2
  heard : now.taken down = (now.sent down).length → done (now.place child)

variable (link : Link program up down child parent waiting owes)
  (stops : Stops program up down child waiting Stop done)

include link stops

theorem Stopped.step {p : P} (stopped : Stopped up down child Stop done now)
    (paced : Paced up down child parent waiting owes now)
    (stepped : now.step program p = some after) :
    Stopped up down child Stop done after ∧
      ((now.write program p).toList.filter fun entry => entry.1 = up ∨ entry.1 = down) = [] := by
  obtain ⟨⟨entry, last, stop⟩, heard⟩ := stopped
  obtain ⟨asked, answered, sound⟩ := paced
  have upward := sound up
  have downward := sound down
  have one := Bool.toNat_le (waiting (now.place child))
  cases link.move stepped with
  | asks message own writes sent taken waits stays =>
    rw [waits.1, Bool.toNat_false] at asked
    obtain ⟨next, doing⟩ := write_some.mp writes
    rw [own] at doing
    exact absurd doing (stops.silent (heard (by omega)))
  | answers message own writes sent taken owed stays =>
    rw [owed.1, Bool.toNat_true] at answered
    have idle := stops.idle (heard (by omega))
    rw [idle, Bool.toNat_false] at asked
    omega
  | takes own writes sent taken owed stays =>
    refine ⟨⟨⟨entry, by rw [sent.2, last], stop⟩, ?_⟩, by simp [writes]⟩
    rw [taken.2, sent.2, stays]
    exact heard
  | hears message next own writes doing found place sent taken waits stays =>
    refine ⟨⟨⟨entry, by rw [sent.2, last], stop⟩, ?_⟩, by simp [writes]⟩
    rw [taken.2, sent.2, place]
    intro all
    rw [List.getLast?_eq_getElem?, ← all, Nat.add_sub_cancel, found] at last
    rw [Option.some.inj last]
    exact stops.enters doing stop
  | other writes sent taken waits owed =>
    refine ⟨⟨⟨entry, by rw [sent.2, last], stop⟩, ?_⟩, writes_elsewhere writes⟩
    rw [taken.2, sent.2]
    intro all
    by_cases own : child = p
    · subst own
      exact stops.stays (heard all) (step_leads stepped)
    · rw [step_place stepped child own]
      exact heard all

theorem Stopped.silent {labels : List P} (stopped : Stopped up down child Stop done now)
    (paced : Paced up down child parent waiting owes now)
    (ran : Lib.run (Network.step program) now labels = some final) :
    now.traffic program up down labels = [] := by
  induction labels generalizing now with
  | nil => rfl
  | cons p labels ih =>
    obtain ⟨next, stepped, continued⟩ := (run_cons _ now final p labels).mp ran
    obtain ⟨still, quiet⟩ := stopped.step link stops paced stepped
    rw [traffic_cons stepped, quiet, ih still (link.step paced stepped) continued]
    rfl

theorem Link.stop_last {labels : List P} (paced : Paced up down child parent waiting owes now)
    (ran : Lib.run (Network.step program) now labels = some final) {before rest : List (C × M)}
    {message : M} (stop : Stop message)
    (split : now.traffic program up down labels = before ++ (down, message) :: rest) : rest = [] := by
  induction labels generalizing now before with
  | nil => simp [traffic, Network.writes] at split
  | cons p labels ih =>
    obtain ⟨next, stepped, continued⟩ := (run_cons _ now final p labels).mp ran
    have paced' := link.step paced stepped
    rw [traffic_cons stepped] at split
    cases link.move stepped with
    | asks message' own writes sent taken waits stays =>
      have apart := link.apart
      rcases before with _ | ⟨first, before⟩
      · simp [writes, apart] at split
      · simp only [writes, Option.toList_some, List.filter_cons, true_or, decide_true, if_true,
          List.filter_nil, List.cons_append, List.nil_append, List.cons.injEq] at split
        exact ih paced' continued split.2
    | answers message' own writes sent taken owed stays =>
      simp only [writes, Option.toList_some, List.filter_cons, or_true, decide_true, if_true,
        List.filter_nil, List.cons_append, List.nil_append] at split
      rcases before with _ | ⟨first, before⟩
      · simp only [List.nil_append, List.cons.injEq, Prod.mk.injEq, true_and] at split
        obtain ⟨rfl, rfl⟩ := split
        have stopped : Stopped up down child Stop done next := by
          refine ⟨⟨(p, message'), by rw [sent.2, List.getLast?_concat], stop⟩, ?_⟩
          have downward := paced.sound down
          rw [taken.2, sent.2, List.length_append, List.length_singleton]
          intro all
          omega
        exact stopped.silent link stops paced' continued
      · simp only [List.cons_append, List.cons.injEq] at split
        exact ih paced' continued split.2
    | takes own writes sent taken owed stays =>
      simp only [writes, Option.toList_none, List.filter_nil, List.nil_append] at split
      exact ih paced' continued split
    | hears message' next' own writes doing found place sent taken waits stays =>
      simp only [writes, Option.toList_none, List.filter_nil, List.nil_append] at split
      exact ih paced' continued split
    | other writes sent taken waits owed =>
      rw [writes_elsewhere writes, List.nil_append] at split
      exact ih paced' continued split

end

end SPHomework.Lib
