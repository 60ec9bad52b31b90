import SPHomework.Lib.Logging

set_option autoImplicit false

/-!
# What two logs say of one channel

The writer of a channel logs a message before it sends it, and the reader logs
it after it has taken it, perhaps with some delay. Then the one log mirrors the
other at all times.
-/

namespace SPHomework.Lib

variable {P C M O L K T D : Type}

/-- The log of `p` announces what it sends: `due` is what it sends from a place on before it takes
a message. `Ok` holds at the places where it can be. -/
structure Announces (program : P → L → Action P C M O L) (record : Recorder P L M K T) (Ok : L → Prop)
    (p : P) (channel : C) (view : M → D) (said : T → Option D) (due : L → List M) : Prop where
  stays : ∀ {place next}, Ok place → (program p place).Leads next → Ok next
  writer : ∀ {q place message next}, program q place = .send channel message next → q = p
  sends : ∀ {place message next}, Ok place → program p place = .send channel message next →
    due place = message :: due next
  takes : ∀ {place other next}, Ok place → program p place = .receive other next → due place = [] ∧
    ∀ memory message, (record p place memory message).2.filterMap said = (due (next message)).map view
  keeps : ∀ {place next}, Ok place → (program p place).Leads next →
    (∀ message next, program p place ≠ .send channel message next) →
    (∀ other next, program p place ≠ .receive other next) → due next = due place

/-- The log of `q` repeats what it takes: `owed` is what it has taken at a place and not yet noted. -/
structure Repeats (program : P → L → Action P C M O L) (record : Recorder P L M K T) (Ok : L → Prop)
    (q : P) (channel : C) (view : M → D) (heard : T → Option D) (owed : L → List M) : Prop where
  stays : ∀ {place next}, Ok place → (program q place).Leads next → Ok next
  reader : ∀ {p place next}, program p place = .receive channel next → p = q
  takes : ∀ {place next}, Ok place → program q place = .receive channel next → ∀ memory message,
    (record q place memory message).2.filterMap heard ++ (owed (next message)).map view =
      (owed place).map view ++ [view message]
  others : ∀ {place other next}, Ok place → program q place = .receive other next → other ≠ channel →
    ∀ memory message,
      (record q place memory message).2.filterMap heard ++ (owed (next message)).map view =
        (owed place).map view
  keeps : ∀ {place next}, Ok place → (program q place).Leads next →
    (∀ other next, program q place ≠ .receive other next) → owed next = owed place

namespace Network

variable {program : P → L → Action P C M O L} {record : Recorder P L M K T} {Ok : L → Prop}
  {p q : P} {channel : C} {view : M → D} {said heard : T → Option D} {due owed : L → List M}

def seen (network : Network P C M O L) (channel : C) (view : M → D) : List D :=
  (network.sent channel).map fun entry => view entry.2

theorem seen_kept {network later : Network P C M O L} (sent : later.sent channel = network.sent channel)
    (view : M → D) : later.seen channel view = network.seen channel view := by
  rw [seen, seen, sent]

-- Nothing that is taken already changes when more is sent.
theorem take_seen {network later : Network P C M O L} {count : Nat} {more : List (P × M)}
    (sound : count ≤ (network.sent channel).length) (grown : later.sent channel = network.sent channel ++ more)
    (view : M → D) : (later.seen channel view).take count = (network.seen channel view).take count := by
  rw [seen, seen, grown, List.map_append, List.take_append_of_le_length (by simpa using sound)]

structure Announced (Ok : L → Prop) (p : P) (channel : C) (view : M → D) (said : T → Option D)
    (due : L → List M) (network : Network P C M (O ⊕ T) (Noted L K T)) : Prop where
  ok : Ok (network.place p).place
  all : (network.log p).filterMap said ++ (network.place p).pending.filterMap said =
    network.seen channel view ++ (due (network.place p).place).map view
  few : ((network.place p).pending.filterMap said).length ≤ (due (network.place p).place).length

structure Repeated (Ok : L → Prop) (q : P) (channel : C) (view : M → D) (heard : T → Option D)
    (owed : L → List M) (network : Network P C M (O ⊕ T) (Noted L K T)) : Prop where
  ok : Ok (network.place q).place
  sound : network.taken channel ≤ (network.sent channel).length
  all : (network.log q).filterMap heard ++ (network.place q).pending.filterMap heard ++
    (owed (network.place q).place).map view = (network.seen channel view).take (network.taken channel)

variable {now after : Network P C M (O ⊕ T) (Noted L K T)}

-- Messages are sent when all lines are written, so what is sent is in the log.
theorem Announced.sent_logged (announced : Announced Ok p channel view said due now) :
    now.seen channel view <+: (now.log p).filterMap said := by
  have one : now.seen channel view <+: (now.log p).filterMap said ++ (now.place p).pending.filterMap said :=
    ⟨_, announced.all.symm⟩
  refine List.prefix_of_prefix_length_le one (List.prefix_append _ _) ?_
  have length := congrArg List.length announced.all
  simp only [List.length_append, List.length_map] at length
  have few := announced.few
  omega

theorem Repeated.logged_sent (repeated : Repeated Ok q channel view heard owed now) :
    (now.log q).filterMap heard <+: now.seen channel view := by
  have one : (now.log q).filterMap heard <+: (now.seen channel view).take (now.taken channel) := by
    rw [← repeated.all, List.append_assoc]
    exact List.prefix_append _ _
  exact one.trans (List.take_prefix _ _)

/-- What the reader has logged, the writer has logged before. -/
theorem Announced.mirrored (announced : Announced Ok p channel view said due now)
    {Fine : L → Prop} (repeated : Repeated Fine q channel view heard owed now) :
    (now.log q).filterMap heard <+: (now.log p).filterMap said :=
  repeated.logged_sent.trans announced.sent_logged

theorem Announced.done (announced : Announced Ok p channel view said due now)
    (written : (now.place p).pending = []) (sent : due (now.place p).place = []) :
    (now.log p).filterMap said = now.seen channel view := by
  have all := announced.all
  rw [written, sent] at all
  simpa using all

theorem Repeated.done (repeated : Repeated Ok q channel view heard owed now)
    (written : (now.place q).pending = []) (noted : owed (now.place q).place = [])
    (taken : now.taken channel = (now.sent channel).length) :
    (now.log q).filterMap heard = now.seen channel view := by
  have all := repeated.all
  rw [written, noted, taken, List.take_of_length_le (by simp [seen])] at all
  simpa using all

variable [DecidableEq P] [DecidableEq C]

theorem log_kept {p q : P} (stepped : now.step (recorded program record) p = some after) (other : q ≠ p) :
    after.log q = now.log q := by
  rw [log, step_output stepped q other]
  rfl

-- What a step is to a channel of the plain network.
theorem step_channel {p : P} (channel : C) (stepped : now.step (recorded program record) p = some after) :
    (after.sent channel = now.sent channel ∧ after.taken channel = now.taken channel ∧
      after.erase = now.erase) ∨
    Touch program channel now.erase after.erase p := by
  cases step_recording stepped with
  | line _ _ _ _ _ same =>
    exact .inl ⟨congrFun (congrArg Network.sent same) channel, congrFun (congrArg Network.taken same) channel, same⟩
  | receives _ _ _ _ _ _ _ _ step => exact .inr (step_touch channel step)
  | acts _ _ _ _ _ step => exact .inr (step_touch channel step)

theorem Announced.step (announces : Announces program record Ok p channel view said due)
    (announced : Announced Ok p channel view said due now)
    (stepped : now.step (recorded program record) q = some after) :
    Announced Ok p channel view said due after := by
  by_cases own : q = p
  · subst own
    cases step_recording stepped with
    | line line rest pending place log same =>
      have sent : after.seen channel view = now.seen channel view :=
        seen_kept (congrFun (congrArg Network.sent same) channel) view
      have all := announced.all
      have few := announced.few
      rw [pending] at all few
      refine ⟨by rw [place]; exact announced.ok, ?_, ?_⟩
      · rw [place, log, sent, ← all, List.filterMap_append, List.append_assoc, ← List.filterMap_append]
        rfl
      · rw [place]
        exact Nat.le_trans ((List.sublist_cons_self line rest).filterMap said).length_le few
    | receives other next entry idle doing found place log step =>
      obtain ⟨nothing, notes⟩ := announces.takes announced.ok doing
      have sent : after.seen channel view = now.seen channel view := by
        cases step_touch channel step with
        | sends message doing' => cases doing.symm.trans doing'
        | receives _ _ _ _ _ sent => exact seen_kept sent view
        | spares _ sent => exact seen_kept sent view
      have all := announced.all
      rw [idle, nothing, List.filterMap_nil, List.map_nil, List.append_nil, List.append_nil] at all
      refine ⟨?_, ?_, ?_⟩
      · rw [place]
        exact announces.stays announced.ok (by rw [doing]; exact ⟨entry.2, rfl⟩)
      · rw [place, log, sent, all, notes]
      · simp [place, notes]
    | acts idle other quiet memory log step =>
      have leads := step_leads step
      have all := announced.all
      rw [idle, List.filterMap_nil, List.append_nil] at all
      refine ⟨announces.stays announced.ok leads, ?_, by simp [quiet]⟩
      rw [quiet, log, all, List.filterMap_nil, List.append_nil]
      cases step_touch channel step with
      | sends message doing sent =>
        have more := announces.sends announced.ok doing
        rw [more, seen, seen, show after.sent channel = _ from sent]
        simp [erase]
      | receives next message doing => exact absurd doing (other _ _)
      | spares spares sent =>
        have same := announces.keeps announced.ok leads spares.1 other
        rw [← same, show after.seen channel view = _ from seen_kept sent view]
        rfl
  · have place := step_place stepped p (Ne.symm own)
    have log := log_kept stepped (Ne.symm own)
    have sent : after.sent channel = now.sent channel := by
      rcases step_channel channel stepped with ⟨sent, -⟩ | touch
      · exact sent
      · cases touch with
        | sends message doing => exact absurd (announces.writer doing) own
        | receives _ _ _ _ _ sent => exact sent
        | spares _ sent => exact sent
    exact ⟨by rw [place]; exact announced.ok, by rw [place, log, seen_kept sent]; exact announced.all,
      by rw [place]; exact announced.few⟩

theorem Repeated.step (repeats : Repeats program record Ok q channel view heard owed)
    (repeated : Repeated Ok q channel view heard owed now)
    (stepped : now.step (recorded program record) p = some after) :
    Repeated Ok q channel view heard owed after := by
  have sound := repeated.sound
  by_cases own : p = q
  · subst own
    cases step_recording stepped with
    | line line rest pending place log same =>
      have sent : after.sent channel = now.sent channel := congrFun (congrArg Network.sent same) channel
      have taken : after.taken channel = now.taken channel := congrFun (congrArg Network.taken same) channel
      have all := repeated.all
      rw [pending] at all
      refine ⟨by rw [place]; exact repeated.ok, by rw [sent, taken]; exact sound, ?_⟩
      rw [place, log, taken, seen_kept sent view, ← all, List.filterMap_append,
        List.append_assoc _ _ (List.filterMap heard rest), ← List.filterMap_append]
      rfl
    | receives other next entry idle doing found place log step =>
      have all := repeated.all
      rw [idle, List.filterMap_nil, List.append_nil] at all
      have ok : Ok (after.place p).place := by
        rw [place]
        exact repeats.stays repeated.ok (by rw [doing]; exact ⟨entry.2, rfl⟩)
      have touch := step_touch channel step
      cases touch with
      | sends message doing' => cases doing.symm.trans doing'
      | receives next' message doing' found' place' sent taken =>
        obtain ⟨rfl, rfl⟩ := Action.receive.inj (doing.symm.trans doing')
        obtain rfl := Option.some.inj (found.symm.trans found')
        replace sent : after.sent other = now.sent other := sent
        replace taken : after.taken other = now.taken other + 1 := taken
        have inside := (List.getElem?_eq_some_iff.mp found).1
        refine ⟨ok, by rw [sent, taken]; exact inside, ?_⟩
        have notes := repeats.takes repeated.ok doing (now.place p).memory entry.2
        rw [place, log, List.append_assoc, notes, ← List.append_assoc, all, taken,
          seen_kept sent view, List.take_add_one]
        congr 1
        rw [seen, List.getElem?_map, found]
        rfl
      | spares spares sent taken =>
        replace sent : after.sent channel = now.sent channel := sent
        replace taken : after.taken channel = now.taken channel := taken
        have different : other ≠ channel := by
          rintro rfl
          exact spares.2 next doing
        refine ⟨ok, by rw [sent, taken]; exact sound, ?_⟩
        have notes := repeats.others repeated.ok doing different (now.place p).memory entry.2
        rw [place, log, List.append_assoc, notes, all, taken, seen_kept sent view]
    | acts idle other quiet memory log step =>
      have leads := step_leads step
      have all := repeated.all
      rw [idle, List.filterMap_nil, List.append_nil] at all
      have same := repeats.keeps repeated.ok leads other
      have ok := repeats.stays repeated.ok leads
      cases step_touch channel step with
      | sends message doing sent taken =>
        replace sent : after.sent channel = now.sent channel ++ [(p, message)] := sent
        replace taken : after.taken channel = now.taken channel := taken
        refine ⟨ok, by rw [sent, taken, List.length_append]; omega, ?_⟩
        rw [quiet, log, taken, take_seen sound sent view, ← all, ← same]
        simp [erase]
      | receives next message doing => exact absurd doing (other _ _)
      | spares _ sent taken =>
        replace sent : after.sent channel = now.sent channel := sent
        replace taken : after.taken channel = now.taken channel := taken
        refine ⟨ok, by rw [sent, taken]; exact sound, ?_⟩
        rw [quiet, log, taken, seen_kept sent view, ← all, ← same]
        simp [erase]
  · have place := step_place stepped q (Ne.symm own)
    have log := log_kept stepped (Ne.symm own)
    have grown : ∃ sent, after.sent channel = now.sent channel ++ sent ∧ after.taken channel = now.taken channel := by
      rcases step_channel channel stepped with ⟨sent, taken, -⟩ | touch
      · exact ⟨[], by rw [sent, List.append_nil], taken⟩
      · cases touch with
        | sends message doing sent taken => exact ⟨_, sent, taken⟩
        | receives next message doing => exact absurd (repeats.reader doing) own
        | spares _ sent taken => exact ⟨[], by rw [List.append_nil]; exact sent, taken⟩
    obtain ⟨more, sent, taken⟩ := grown
    refine ⟨by rw [place]; exact repeated.ok, ?_, ?_⟩
    · rw [sent, taken, List.length_append]
      omega
    · rw [place, log, taken, take_seen sound sent view]
      exact repeated.all

end Network

end SPHomework.Lib
