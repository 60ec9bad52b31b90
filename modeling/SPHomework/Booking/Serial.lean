import SPHomework.Booking.Conversing
import SPHomework.Booking.Guarantees
import SPHomework.Booking.Limits

set_option autoImplicit false

/-!
# The servers as one server

Any interleaving of the servers comes to the same as the stored commands one
after another, each decided on the record as the earlier ones left it.
-/

namespace SPHomework.Booking

open Lib

/-- One booking after the other, on a file that nobody else uses: the client is shown its record, and
its command is decided on that record. -/
inductive Serves (file : Nat → Record) : List Conn → (Nat → Record) → Prop
  | idle : Serves file [] file
  | book {earlier : List Conn} {before : Nat → Record} {conn : Conn} {record : Nat} {line : CStr}
      {value : Record} (served : Serves file earlier before) (entered : conn.entered = some record)
      (shown : conn.shown = [.enterId, .prompt (before record).counts])
      (second : conn.line 1 = some line)
      (answered : reply (before record) line = some (.updated value)) :
      Serves file (earlier ++ [conn]) (Function.update before record value)

-- The limits, or a total that 32 bits take for one within them.
structure Limited (counts : Counts) : Prop where
  food : 0 ≤ counts.food.toInt
  concert : 0 ≤ counts.concert.toInt
  electronics : 0 ≤ counts.electronics.toInt
  total : counts.food.toInt + counts.concert.toInt + counts.electronics.toInt ≤ 15 ∨
    2147483648 ≤ counts.food.toInt + counts.concert.toInt + counts.electronics.toInt ∧
      counts.food.toInt + counts.concert.toInt + counts.electronics.toInt ≤ 4294967311

theorem verdict_limited (before value : Record) (food concert electronic : CInt)
    (stored : verdict before food concert electronic = .stored value) : Limited value.counts := by
  have shape := verdict_stored before value food concert electronic stored
  have total : before.counts.food + before.counts.concert + before.counts.electronics + food + concert +
      electronic = value.counts.food + value.counts.concert + value.counts.electronics := by
    rw [shape]
    simp only [Counts.add_food, Counts.add_concert, Counts.add_electronics]
    ring
  have exact_ : (value.counts.food + value.counts.concert + value.counts.electronics).toInt =
      (value.counts.food.toInt + value.counts.concert.toInt + value.counts.electronics.toInt).bmod
        (2 ^ 32) := by
    simp [BitVec.toInt_add]
  have foodRange := toInt_range value.counts.food
  have concertRange := toInt_range value.counts.concert
  have electronicRange := toInt_range value.counts.electronics
  have parts : value.counts.food = food + before.counts.food ∧
      value.counts.concert = concert + before.counts.concert ∧
      value.counts.electronics = electronic + before.counts.electronics := by
    rw [shape]
    exact ⟨add_comm _ _, add_comm _ _, add_comm _ _⟩
  simp only [verdict, total, ← parts.1, ← parts.2.1, ← parts.2.2] at stored
  rw [exact_] at stored
  simp only [Int.bmod] at stored
  split_ifs at stored
  all_goals constructor <;> omega

theorem reply_stored (before value : Record) (line : CStr)
    (answered : reply before line = some (.updated value)) : Limited value.counts := by
  obtain ⟨outcome, -, told⟩ := Option.map_eq_some_iff.mp answered
  cases outcome with
  | none => exact absurd told (by simp)
  | some delta =>
  cases decided : verdict before delta.food delta.concert delta.electronics with
  | tooMany => simp [decided, Verdict.message] at told
  | belowZero => simp [decided, Verdict.message] at told
  | stored record =>
    obtain rfl : record = value := by simpa [decided, Verdict.message] using told
    exact verdict_limited before record _ _ _ decided

theorem Serves.limited {file later : Nat → Record} {ledger : List Conn}
    (serves : Serves file ledger later) (record : Nat) :
    later record = file record ∨ Limited (later record).counts := by
  induction serves with
  | idle => exact .inl rfl
  | @book earlier before conn number line value served entered shown second answered ih =>
    by_cases same : record = number
    · subst same
      rw [Function.update_self]
      exact .inr (reply_stored _ _ _ answered)
    · rw [Function.update_of_ne same]
      exact ih

theorem afterBookings_other (file : Nat → Record) (ledger : List Conn) (conn : Conn) (record : Nat)
    (other : conn.entered ≠ some record) :
    afterBookings file (ledger ++ [conn]) record = afterBookings file ledger record := by
  simp [afterBookings, deltas, other]

variable {P : Type} [DecidableEq P] [Fintype P] {file : Nat → Record} {ledger : List Conn}
  {host : Host} {kind : P → ServerKind} {heap : P → Nat → List UInt8} {labels later : List (Label P)}
  {middle system : System P}

omit [DecidableEq P] [Fintype P] in
theorem serves_take (decided : ∀ number conn, ledger[number]? = some conn →
    ∃ record line, Decided file ledger number conn record line) (number : Nat) :
    Serves file (ledger.take number) (afterBookings file (ledger.take number)) := by
  induction number with
  | zero =>
    have start : afterBookings file [] = file := by
      funext record
      simp [afterBookings, deltas]
    rw [List.take_zero, start]
    exact .idle
  | succ number ih =>
    by_cases inside : number < ledger.length
    · obtain ⟨record, line, entered, second, shown, answered⟩ :=
        decided number ledger[number] (List.getElem?_eq_getElem inside)
      have split : ledger.take (number + 1) = ledger.take number ++ [ledger[number]] :=
        List.take_succ_eq_append_getElem inside
      have content : afterBookings file (ledger.take (number + 1)) =
          Function.update (afterBookings file (ledger.take number)) record
            (afterBookings file (ledger.take (number + 1)) record) := by
        funext other
        by_cases same : other = record
        · rw [same, Function.update_self]
        · rw [Function.update_of_ne same, split, afterBookings_other]
          rw [entered]
          exact fun equal => same (Option.some.inj equal).symm
      rw [content, split]
      exact .book ih entered shown second (split ▸ answered)
    · rw [List.take_of_length_le (by omega)] at ih ⊢
      exact ih

omit [DecidableEq P] [Fintype P] in
theorem Conversing.serves {known : Nat → Nat}
    (conversing : Conversing file system.kernel.ledger known kind system) (inv : KernelInv file system.kernel) :
    Serves file system.kernel.ledger system.kernel.file := by
  have serves := serves_take conversing.stored system.kernel.ledger.length
  have content : system.kernel.file = afterBookings file system.kernel.ledger := funext inv.content
  rw [content]
  rwa [List.take_length] at serves

/-- In every run of any number of servers the file is the one that the stored commands make of it one
after another, each with the answer its client was given. -/
theorem bookings_serial
    (ran : run (System.step host kind) (System.init host file heap) labels = some system) :
    Serves file system.kernel.ledger system.kernel.file :=
  (Conversing.reachable ran List.prefix_rfl).serves (SystemInv.reachable ran).kernel

-- A session that books 1 2 3 on a record.
def oneBooking : List (Label Unit) := connect ++ turn 5 (.chunk idLine) ++ turn 8 (.chunk bookLine)

def twoBookings : List (Label Unit) := oneBooking ++ oneBooking

def smallFile (record : Nat) : Record := ⟨BitVec.ofNat 32 (902001 + record), 0⟩

theorem two_booked :
    ∃ system, run (System.step smallHost fun _ => .writeServer) smallStart twoBookings = some system ∧
      system.kernel.ledger.length = 2 ∧ system.kernel.past.length = 2 ∧
      system.kernel.file 0 = ⟨902001, ⟨2, 4, 6⟩⟩ := by
  obtain ⟨system, memory, ran, between, seen⟩ := ends_idle (fun _ => .writeServer) smallStart
    twoBookings [] (fun kernel _ => kernel.ledger.length = 2 ∧ kernel.past.length = 2 ∧
      kernel.file 0 = ⟨902001, ⟨2, 4, 6⟩⟩) (by decide)
  exact ⟨system, ran, of_decide_eq_true seen⟩

theorem bookings_serial_two :
    ∃ system, run (System.step smallHost fun _ => .writeServer) smallStart twoBookings = some system ∧
      Serves smallFile system.kernel.ledger system.kernel.file ∧ system.kernel.ledger.length = 2 ∧
      system.kernel.file 0 = ⟨902001, ⟨2, 4, 6⟩⟩ := by
  obtain ⟨system, ran, length, -, content⟩ := two_booked
  exact ⟨system, ran, bookings_serial ran, length, content⟩

/-- A record is as the file had it at first, or within the limits as 32 bits count them. -/
theorem counts_limited
    (ran : run (System.step host kind) (System.init host file heap) labels = some system)
    (record : Nat) :
    system.kernel.file record = file record ∨ Limited (system.kernel.file record).counts :=
  ((Conversing.reachable ran List.prefix_rfl).serves (SystemInv.reachable ran).kernel).limited record

theorem counts_limited_two :
    ∃ system, run (System.step smallHost fun _ => .writeServer) smallStart twoBookings = some system ∧
      (system.kernel.file 0 = smallFile 0 ∨ Limited (system.kernel.file 0).counts) ∧
      system.kernel.file 0 ≠ smallFile 0 := by
  obtain ⟨system, ran, -, -, content⟩ := two_booked
  exact ⟨system, ran, counts_limited ran 0, by rw [content]; decide⟩

/-- The stored commands that a session has to know of, by its number: if it began later than the given
state, all that were stored then. -/
def knownSince (middle : System P) (sid : Nat) : Nat :=
  if sid < middle.kernel.nextSid then 0 else middle.kernel.ledger.length

/-- In every run, each client has had a dialogue with its server: those whose connections the servers
have closed, and those whose handlers are not running. Clients that come later know at least what was
stored before. -/
theorem dialogues
    (ran : run (System.step host kind) (System.init host file heap) labels = some middle)
    (continued : run (System.step host kind) middle later = some system) :
    (∀ conn ∈ system.kernel.past, ∃ pid,
        Dialogue file system.kernel.ledger (knownSince middle conn.sid) (kind pid) conn) ∧
      ∀ pid fd conn, system.kernel.conns pid fd = some conn →
        (∀ working code, system.proc pid ≠ .handling fd working code) →
          Dialogue file system.kernel.ledger (knownSince middle conn.sid) (kind pid) conn := by
  have inv := SystemInv.reachable ran
  have before := (Conversing.reachable ran (run_ledger continued)).since inv.kernel
    (fun sid present => (if_pos present : knownSince middle sid = 0))
  have recent : ∀ sid, knownSince middle sid ≤ middle.kernel.ledger.length := by
    intro sid
    unfold knownSince
    split_ifs <;> simp
  have conversing := before.run inv recent continued List.prefix_rfl
  refine ⟨conversing.past, fun pid fd conn here waiting => ?_⟩
  have own := conversing.procs pid
  cases proc : system.proc pid with
  | loop memory working =>
    rw [proc] at own
    exact own fd conn here
  | handling other working code =>
    rw [proc] at own
    refine own.2 fd ?_ conn here
    rintro rfl
    exact waiting working code proc
  | exited =>
    have gone := (SystemInv.reachable ((run_append ..).mpr ⟨middle, ran, continued⟩)).procs pid
    rw [proc] at gone
    exact absurd (here.symm.trans (gone.2 fd)) (by simp)

theorem dialogues_two :
    ∃ middle system, run (System.step smallHost fun _ => .writeServer) smallStart oneBooking = some middle ∧
      run (System.step smallHost fun _ => .writeServer) middle oneBooking = some system ∧
      middle.kernel.ledger.length = 1 ∧ system.kernel.past.length = 2 ∧
      ∀ conn ∈ system.kernel.past,
        Dialogue smallFile system.kernel.ledger (knownSince middle conn.sid) .writeServer conn := by
  obtain ⟨middle, memory, ran, -, seen⟩ := ends_idle (fun _ => .writeServer) smallStart oneBooking []
    (fun kernel _ => kernel.ledger.length = 1) (by decide)
  obtain ⟨system, whole, -, length, -⟩ := two_booked
  obtain ⟨middle', ran', continued⟩ := (run_append ..).mp whole
  obtain rfl := Option.some.inj (ran.symm.trans ran')
  refine ⟨middle, system, ran, continued, of_decide_eq_true seen, length, fun conn member => ?_⟩
  obtain ⟨-, dialogue⟩ := (dialogues ran continued).1 conn member
  exact dialogue

end SPHomework.Booking
